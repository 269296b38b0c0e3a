import WfOpt.Storage.UpdateRuns

/-!
# What transactions read of updates

A transaction finds the values of its snapshot in the nodes of a vector, and what it has written itself
(`UpdateState.fetch_eq_snapshot`), in any run the same (`UpdateState.fetch_repeats`). Nobody updates a row that
another transaction has updated and not committed before the start (`UpdateState.update_conflict`). An update of a
row to the value that it has already is skipped, so that the row may have the value of a transaction committed
earlier (`UpdateState.fetchRow_skipped`).
-/

namespace WfOpt

open List Function

variable {T : Type*}

/-! ## Snapshots -/

namespace UpdateChain

variable {m : TransactionManager} {base : ℕ → Cell T} {history : List (Commit ℕ (Cell T))}
  {written : ℕ → ℕ → Option (Cell T)} {c : UpdateChain T} {l : List ℕ} {t : TransactionData}

namespace Inv

/-- A transaction reads its snapshot, with what it has written itself. -/
theorem fetch_eq (h : c.Inv m base history written l) (hm : m.Past history) (ht : t ∈ m.active)
    (hcom : ∀ d, m.committing ≠ some (t, d)) (hst : t.startTime < transactionIdStart - 1) :
    ∃ result, c.fetchUpdates t base = some result ∧ ∀ k, c.fetchRow t k (base k) = some (result k) ∧
      result k = (written t.transactionId k).getD (valueAt base history t.startTime k) := by
  cases h with
  | empty hroot hwr hhist =>
    refine ⟨base, ?_, fun k => ⟨?_, ?_⟩⟩
    · rw [fetchUpdates, hroot]
    · rw [fetchRow, hroot]
    · rw [hwr t ht, Option.getD_none, valueAt_eq_base fun d hd => hhist d hd k]
  | chain root l hshp hvers =>
    have hroot : (c.info root).appliesToTransaction t = true := by
      have hne : (c.info root).versionNumber ≠ t.transactionId := by
        rw [hshp.version_root]
        exact ((Nat.sub_lt (by decide) Nat.one_pos).trans_le (hm.valid.transactionId_mem t ht).1).ne
      rw [UpdateInfo.appliesToTransaction, decide_eq_true hne, hshp.version_root, decide_eq_true hst]
      rfl
    obtain ⟨result, hfetch, hrow⟩ := hshp.fetchUpdates_eq hroot base
    refine ⟨result, hfetch, fun k => ⟨hrow k, ?_⟩⟩
    have heq := hrow k
    rw [hshp.fetchRow_eq hroot] at heq
    rw [← Option.some.inj heq]
    refine hvers.fold_eq hm ht hcom (fun p _ => ?_) k
    rw [UpdateInfo.appliesToTransaction, Bool.and_eq_true, decide_eq_true_iff, decide_eq_true_iff]
    rfl

variable (h : c.Inv m base history written l)

include h

/-- If nothing is uncommitted, the newest values are the latest ones. -/
theorem newest_eq (hm : m.Past history)
    (hwr : ∀ t ∈ m.active, ∀ k, written t.transactionId k = none) (k : ℕ) :
    (c.newest k).getD (base k) = valueAt base history m.currentStartTimestamp k := by
  have hlatest := hm.valueAt_latest base (fun d hd => (hm.committed d hd).lt) k
  cases h with
  | empty hroot _ hhist =>
    rw [newest, hroot, valueAt_eq_base fun d hd => hhist d hd k]
    rfl
  | chain root l hshp hvers =>
    rw [newest, hshp.root_eq, Option.bind_some, hlatest]
    cases hcur : c.old root k with
    | none => exact (valueAt_eq_base (hvers.unwritten k hcur) _).symm
    | some x => exact hvers.cur_eq k x hcur fun t ht => hwr t ht k

theorem mem_node_iff (ht : t ∈ m.active)
    (hcom : ∀ d, m.committing ≠ some (t, d)) (k : ℕ) :
    (∃ p ∈ l, c.version p = t.transactionId ∧ k ∈ (c.info p).tuples.map Prod.fst) ↔
      written t.transactionId k ≠ none := by
  cases h with
  | empty _ hwr =>
    exact ⟨fun ⟨p, hp, _⟩ => absurd hp not_mem_nil, fun hk => absurd (hwr t ht k) hk⟩
  | chain root l hshp hvers =>
    have hmem : ∀ p ∈ l, k ∈ (c.info p).tuples.map Prod.fst ↔ c.old p k ≠ none := fun p hp =>
      (hshp.rows p (mem_cons_of_mem _ hp)).increasing.lookup_ne_none_iff.symm
    constructor
    · rintro ⟨p, hp, hver, hk⟩
      have hold := (hmem p hp).1 hk
      rw [hvers.written_eq t ht p hp (.inl hver) k hold]
      exact hvers.cur_of_old p hp k hold
    · intro hk
      obtain ⟨p, hp, hown, hold⟩ := hvers.owned t ht k hk
      exact ⟨p, hp, hown.resolve_right (hcom _), (hmem p hp).2 hold⟩

theorem increasing {p : ℕ} (hp : p ∈ l ∨ c.root = some p) :
    RowsOf (c.info p).tuples := by
  cases h with
  | empty hroot => exact hp.elim (fun hp => absurd hp not_mem_nil) fun hp => nomatch hroot.symm.trans hp
  | chain root l hshp =>
    refine hshp.rows p (hp.elim (mem_cons_of_mem _) fun hp => ?_)
    rw [Option.some.inj (hp.symm.trans hshp.root_eq)]
    exact mem_cons_self

end Inv

end UpdateChain

theorem UpdateSegment.fetchCommittedRange_eq (s : UpdateSegment T)
    (hrs : ∀ v root, (s.chains v).root = some root → RowsOf ((s.chains v).info root).tuples)
    (startRow count : ℕ) (result : ℕ → Cell T) {i : ℕ} (hi : i < count) :
    s.fetchCommittedRange startRow count result i =
      ((s.chains ((startRow + i) / standardVectorSize)).newest ((startRow + i) % standardVectorSize)).getD
        (result i) := by
  obtain ⟨v, hv⟩ : ∃ v, v = (startRow + i) / standardVectorSize := ⟨_, rfl⟩
  -- the rows of a vector of the range
  have hfold : ∀ (l : List ℕ) (f : (ℕ → Cell T) → ℕ → ℕ → Cell T), l.Nodup → (∀ w ∈ l, ∀ result, f result w i =
        if w = v then ((s.chains v).newest ((startRow + i) % standardVectorSize)).getD (result i) else result i) →
      ∀ result, l.foldl f result i = if v ∈ l then
        ((s.chains v).newest ((startRow + i) % standardVectorSize)).getD (result i) else result i := by
    intro l f
    induction l with
    | nil => exact fun _ _ _ => (if_neg not_mem_nil).symm
    | cons w l ih =>
      intro hnd hstep result
      obtain ⟨hw, hl⟩ := nodup_cons.1 hnd
      rw [foldl_cons, ih hl fun w hw => hstep w (mem_cons_of_mem _ hw), hstep w mem_cons_self]
      by_cases hwv : w = v
      · rw [if_pos hwv, if_neg (hwv ▸ hw), if_pos (hwv ▸ mem_cons_self)]
      · rw [if_neg hwv]
        refine if_congr ⟨mem_cons_of_mem _, fun hv => ?_⟩ rfl rfl
        exact (mem_cons.1 hv).resolve_left (Ne.symm hwv)
  rw [fetchCommittedRange]
  rw [hfold _ _ (nodup_range.map fun _ _ => Nat.add_left_cancel) fun w hw result => ?_, if_pos, hv]
  · refine mem_map.2 ⟨v - startRow / standardVectorSize, mem_range.2 ?_, ?_⟩
    iterate 2
      · simp only [standardVectorSize] at hv ⊢
        omega
  · obtain ⟨d, hd, rfl⟩ := mem_map.1 hw
    obtain ⟨w, hw⟩ : ∃ w, w = startRow / standardVectorSize + d := ⟨_, rfl⟩
    rw [← hw]
    cases hroot : (s.chains w).root with
    | none =>
      by_cases hwv : w = v
      · rw [if_pos hwv, UpdateChain.newest, ← hwv, hroot]
        rfl
      · rw [if_neg hwv]
    | some root =>
      obtain ⟨first, hfst⟩ : ∃ first, first = if w = startRow / standardVectorSize then
            startRow - startRow / standardVectorSize * standardVectorSize else 0 := ⟨_, rfl⟩
      obtain ⟨last, hlst⟩ : ∃ last, last = if w = (startRow + count - 1) / standardVectorSize then
            startRow + count - (startRow + count - 1) / standardVectorSize * standardVectorSize
          else standardVectorSize := ⟨_, rfl⟩
      rw [← hfst, ← hlst]
      simp only [standardVectorSize] at hv hw hd hfst hlst ⊢
      have hfst' := And.intro (fun h => hfst.trans (if_pos h)) fun h => hfst.trans (if_neg h)
      have hlst' := And.intro (fun h => hlst.trans (if_pos h)) fun h => hlst.trans (if_neg h)
      have hle : first ≤ last := by omega
      -- the row is in the part of the vector if it is in the vector
      have hin : (w * 2048 + first - startRow ≤ i ∧ i < w * 2048 + first - startRow + (last - first)) ↔ w = v := by
        omega
      rw [mergeUpdateInfoRange_eq (hrs w root hroot).increasing hle]
      by_cases hwv : w = v
      · have hrow : first + (i - (w * 2048 + first - startRow)) = (startRow + i) % 2048 := by omega
        rw [if_pos (hin.2 hwv), if_pos hwv, hrow, ← hwv, UpdateChain.newest, hroot]
        rfl
      · rw [if_neg fun h => hwv (hin.1 h), if_neg hwv]

namespace UpdateState

variable [BEq T] {sort : IndexSort} {base : ℕ → ℕ → Cell T} {s s' : UpdateState T}

/-- A transaction that is not in the middle of its commit reads what it has written, and otherwise what was committed
    last before it started; a checkpoint reads what was committed last, if all updates are committed. -/
theorem fetch_eq_snapshot (h : Reachable Init (Next sort base) s) :
    (∀ t ∈ s.transactions.active, (∀ c, s.transactions.committing ≠ some (t, c)) →
      t.startTime < transactionIdStart - 1 → ∀ v, ∃ result,
        (s.segment.chains v).fetchUpdates t (base v) = some result ∧
          ∀ row, (s.segment.chains v).fetchRow t row (base v row) = some (result row) ∧
            result row = (s.written t.transactionId (v, row)).getD
              (valueAt (fun k => base k.1 k.2) s.history t.startTime (v, row))) ∧
      ((∀ t ∈ s.transactions.active, ∀ k, s.written t.transactionId k = none) →
        ∀ (startRow count : ℕ) (result : ℕ → Cell T), (∀ i < count, result i =
            base ((startRow + i) / standardVectorSize) ((startRow + i) % standardVectorSize)) →
          ∀ i < count, s.segment.fetchCommittedRange startRow count result i =
            valueAt (fun k => base k.1 k.2) s.history s.transactions.currentStartTimestamp
              ((startRow + i) / standardVectorSize, (startRow + i) % standardVectorSize)) ∧
        ∀ v p, (v, p) ∈ s.undo ∨ (s.segment.chains v).root = some p →
          Increasing ((s.segment.chains v).info p).tuples := by
  have hinv := inv_of_reachable h
  have hval : ∀ v time k, valueAt (base v) (s.historyOf v) time k =
      valueAt (fun k => base k.1 k.2) s.history time (v, k) := fun v time k =>
    valueAt_restrict (fun k => (v, k)) (fun k : ℕ × ℕ => base k.1 k.2) s.history time k
  refine ⟨fun t ht hcom hst v => ?_, fun hwr startRow count result hres i hi => ?_, fun v p hp => ?_⟩
  · obtain ⟨l, hvec, -⟩ := hinv.vectors v
    obtain ⟨result, hfetch, hrow⟩ := hvec.fetch_eq (hinv.past.restrict _) ht hcom hst
    exact ⟨result, hfetch, fun k => ⟨(hrow k).1, (hrow k).2.trans (by rw [hval]; rfl)⟩⟩
  · have hrs : ∀ v root, (s.segment.chains v).root = some root →
        RowsOf ((s.segment.chains v).info root).tuples := fun v root hroot =>
      (hinv.vectors v).elim fun l hl => hl.1.increasing (.inr hroot)
    obtain ⟨l, hvec, -⟩ := hinv.vectors ((startRow + i) / standardVectorSize)
    rw [s.segment.fetchCommittedRange_eq hrs startRow count result hi, hres i hi,
      hvec.newest_eq (hinv.past.restrict _) fun t ht k => hwr t ht _, hval]
  · obtain ⟨l, hvec, hl⟩ := hinv.vectors v
    exact (hvec.increasing (hp.imp_left (hl p).1)).increasing

/-- What is committed from now on is not in the snapshots of the times so far. -/
theorem valueAt_run (h : Reachable (· = s) (Next sort base) s') {time : ℕ}
    (htime : time < s.transactions.currentStartTimestamp)
    (hcom : ∀ u c, s.transactions.committing = some (u, c) → time < c) :
    time < s'.transactions.currentStartTimestamp ∧ (∀ u c, s'.transactions.committing = some (u, c) → time < c) ∧
      ∀ b k, valueAt b s'.history time k = valueAt b s.history time k := by
  have hrm : ∀ {m : TransactionManager} {t : TransactionData}, (∀ u c, m.committing = some (u, c) → time < c) →
      ∀ u c, (m.removeTransaction t).committing = some (u, c) → time < c := fun hm u c heq =>
    hm u c (by rw [TransactionManager.removeTransaction] at heq; grind)
  induction h with
  | start h =>
    subst h
    exact ⟨htime, hcom, fun _ _ => rfl⟩
  | step _ hnx ih =>
    obtain ⟨hlt, hcom, hval⟩ := ih
    cases hnx with
    | start t m _ h =>
      obtain ⟨-, -, rfl⟩ := TransactionManager.startTransaction_eq h
      exact ⟨Nat.lt_succ_of_lt hlt, hcom, hval⟩
    | startCommit =>
      exact ⟨Nat.lt_succ_of_lt hlt, fun u c heq => (Prod.mk.inj (Option.some.inj heq)).2 ▸ hlt, hval⟩
    | commit t c h => exact ⟨hlt, hrm hcom, fun b k => (valueAt_cons_of_le (hcom t c h).le).trans (hval b k)⟩
    | abortCommit => exact ⟨hlt, (fun _ _ h => by cases h), hval⟩
    | rollback => exact ⟨hlt, hrm hcom, hval⟩
    | update | commitUpdate | revertUpdate | rollbackUpdate | cleanupUpdate => exact ⟨hlt, hcom, hval⟩

/-- Whatever the others do, and whatever is cleaned up, a transaction finds the same value again in a row in which it
    has not written or rolled back in between. -/
theorem fetch_repeats (h : Reachable Init (Next sort base) s) (hrun : Reachable (· = s) (Next sort base) s')
    {t : TransactionData} (ht : t ∈ s.transactions.active) (ht' : t ∈ s'.transactions.active)
    (hcom : ∀ c, s.transactions.committing ≠ some (t, c)) (hcom' : ∀ c, s'.transactions.committing ≠ some (t, c))
    (hst : t.startTime < transactionIdStart - 1) (v : ℕ) :
    ∃ result result', (s.segment.chains v).fetchUpdates t (base v) = some result ∧
      (s'.segment.chains v).fetchUpdates t (base v) = some result' ∧
      ∀ row, s'.written t.transactionId (v, row) = s.written t.transactionId (v, row) →
        result' row = result row ∧ (s'.segment.chains v).fetchRow t row (base v row) =
          (s.segment.chains v).fetchRow t row (base v row) := by
  have hinv := inv_of_reachable h
  have hinv' : s'.Inv base := hrun.invariant (fun _ h => h ▸ hinv) fun _ _ _ hinv hnx => hinv.next hnx
  obtain ⟨l, hvec, -⟩ := hinv.vectors v
  obtain ⟨l', hvec', -⟩ := hinv'.vectors v
  obtain ⟨result, hfetch, hrow⟩ := hvec.fetch_eq (hinv.past.restrict _) ht hcom hst
  obtain ⟨result', hfetch', hrow'⟩ := hvec'.fetch_eq (hinv'.past.restrict _) ht' hcom' hst
  refine ⟨result, result', hfetch, hfetch', fun row hwr => ?_⟩
  have hval := (valueAt_run hrun (hinv.past.valid.startTime_lt t ht).2 fun u c hc =>
    hinv.past.startTime_lt u c hc t ht).2.2 (fun k => base k.1 k.2) (v, row)
  rw [← valueAt_restrict, ← valueAt_restrict] at hval
  have heq : result' row = result row :=
    (hrow' row).2.trans ((congrArg₂ Option.getD hwr hval).trans (hrow row).2.symm)
  exact ⟨heq, (hrow' row).1.trans (heq ▸ (hrow row).1.symm)⟩

/-! ## Conflicts -/

/-- A row is in a node of another transaction that has not committed before the transaction started. -/
def Blocked (s : UpdateState T) (t : TransactionData) (v row : ℕ) : Prop :=
  ∃ p, (v, p) ∈ s.undo ∧ row ∈ ((s.segment.chains v).info p).tuples.map Prod.fst ∧
    ((∃ u ∈ s.transactions.active, u ≠ t ∧ s.transactions.Owns u (s.version (v, p))) ∨
      ∃ c ∈ s.history, c.id = s.version (v, p) ∧ t.startTime < c.id)

/-- After an update, the node of the transaction has a row. -/
def HasNode (s : UpdateState T) (r : UpdateResult T) (t : TransactionData) (v row : ℕ) : Prop :=
  ∃ p, (v, p) ∈ r.created.toList ++ s.undo ∧ (r.segment.chains v).version p = t.transactionId ∧
    row ∈ ((r.segment.chains v).info p).tuples.map Prod.fst

omit [BEq T] in
/-- The versions that an update conflicts with are of other transactions. -/
theorem Inv.blocked_iff (h : s.Inv base) {t : TransactionData} {v : ℕ} {writes : List (ℕ × Cell T)} {l : List ℕ}
    (ht : t ∈ s.transactions.active) (hcom : ∀ c, s.transactions.committing ≠ some (t, c))
    (hl : ∀ p, (v, p) ∈ s.undo ↔ p ∈ l) :
    (∃ q ∈ l, ((s.segment.chains v).info q).Conflicts t (writes.map Prod.fst)) ↔
      ∃ row ∈ writes.map Prod.fst, s.Blocked t v row := by
  obtain ⟨l', hinv, hl'⟩ := h.vectors v
  constructor
  · rintro ⟨p, hp, hne, hlt, row, hrow, hmem⟩
    refine ⟨row, hrow, p, (hl p).2 hp, hmem, ?_⟩
    rcases hinv.version ((hl' p).1 ((hl p).2 hp)) with ⟨u, hu, hown⟩ | ⟨d, hd, hid⟩
    · refine .inl ⟨u, hu, ?_, hown⟩
      rintro rfl
      exact hne (hown.resolve_right (hcom _))
    · obtain ⟨c, hc, rfl⟩ := mem_map.1 hd
      have hid : c.id = s.version (v, p) := hid
      exact .inr ⟨c, hc, hid, hid ▸ hlt⟩
  · rintro ⟨row, hrow, p, hp, hmem, hver⟩
    refine ⟨p, (hl p).1 hp, ?_⟩
    rcases hver with ⟨u, hu, hut, hown⟩ | ⟨c, hc, hid, hlt⟩
    · exact ⟨fun heq => hut (h.past.owns_inj hu ht hown (.inl heq)), h.past.startTime_lt_of_owns hu ht hown, row,
        hrow, hmem⟩
    · have hid : c.id = ((s.segment.chains v).info p).versionNumber := hid
      exact ⟨fun heq => (h.past.lt_transactionId hc ht).ne (hid.trans heq), hid ▸ hlt, row, hrow, hmem⟩

/-- An update fails if and only if one of its rows is in a node of another transaction that has not committed before
    the start, and changes nothing then. Otherwise only rows that have their value already are skipped, and only
    without versions. Transactions that have committed writes of the same row did not overlap. -/
theorem update_conflict (h : Reachable Init (Next sort base) s) {t : TransactionData} {u : UpdateVector T} {v : ℕ}
    (ht : t ∈ s.transactions.active) (hcommit : ∀ c, s.transactions.committing ≠ some (t, c))
    (hu : u.InVector s.segment.start v) :
    ∃ r, s.segment.update sort base t u = some r ∧
      (r.error ≠ none ↔ ∃ i < u.count, (u.data i).isSome = true ∧ s.Blocked t v (u.entry s.segment.start v i).1) ∧
      (r.error ≠ none → r.segment = s.segment ∧ r.created = none) ∧
      (r.error = none → ∀ writes, s.segment.writesOf sort u = some (v, writes) → ∀ p ∈ writes,
        (¬s.HasNode r t v p.1 ↔ (s.segment.chains v).root = none ∧ unchanged (base v p.1) p.2 = true)) ∧
      Exclusive s.history := by
  have hinv := inv_of_reachable h
  rcases hinv.update_cases sort ht hcommit hu with ⟨hwrs, hupd⟩ |
    ⟨writes, l, hwrs, hrs, hl, hcs⟩
  · refine ⟨_, hupd, ⟨fun hne => absurd rfl hne, ?_⟩, fun hne => absurd rfl hne,
      fun _ writes hwrs' => ?_, hinv.exclusive⟩
    · rintro ⟨i, hi, hvld, -⟩
      exact absurd ((s.segment.writesOf_eq_none sort hwrs hi).symm.trans hvld) Bool.false_ne_true
    · cases hwrs.symm.trans hwrs'
  · -- the rows that are written are those of the update
    obtain ⟨-, -, hmem, hall⟩ := s.segment.writesOf_spec sort hu hwrs
    have hblocked : (∃ row ∈ writes.map Prod.fst, s.Blocked t v row) ↔
        ∃ i < u.count, (u.data i).isSome = true ∧ s.Blocked t v (u.entry s.segment.start v i).1 := by
      constructor
      · rintro ⟨row, hrow, hb⟩
        obtain ⟨p, hp, rfl⟩ := mem_map.1 hrow
        obtain ⟨i, hi, hvld, rfl⟩ := hmem p hp
        exact ⟨i, hi, hvld, hb⟩
      · rintro ⟨i, hi, hvld, hb⟩
        obtain ⟨p, hp, hpi⟩ := hall i hi hvld
        exact ⟨p.1, mem_map_of_mem hp, hpi ▸ hb⟩
    rw [hinv.blocked_iff ht hcommit hl, hblocked] at hcs
    rcases hcs with ⟨hconf, hupd⟩ | ⟨hconf, c, node, -, hupd, hc⟩
    · refine ⟨_, hupd, ⟨fun _ => hconf, fun _ hno => ?_⟩, fun _ => ⟨rfl, rfl⟩, fun hno => ?_, hinv.exclusive⟩
      · cases hno
      · cases hno
    · have hfree : ¬∃ row ∈ writes.map Prod.fst, s.Blocked t v row := fun hb => by
        obtain ⟨q, hq, hb⟩ := (hinv.blocked_iff ht hcommit hl).2 hb
        exact hconf q hq hb
      refine ⟨_, hupd, ⟨fun hne => absurd rfl hne, fun hb => absurd (hblocked.2 hb) hfree⟩,
        fun hne => absurd rfl hne, fun _ writes' hwrs' p hp => ?_, hinv.exclusive⟩
      obtain ⟨-, rfl⟩ := Prod.mk.inj (Option.some.inj (hwrs.symm.trans hwrs'))
      have hnode : s.HasNode ⟨s.setChain v c, none, node.map fun p => (v, p)⟩ t v p.1 ↔
          ∃ q ∈ node.toList ++ l, c.version q = t.transactionId ∧ p.1 ∈ (c.info q).tuples.map Prod.fst := by
        rw [HasNode, setChain]
        dsimp only
        rw [update_self]
        exact exists_congr fun q => and_congr_left fun _ => Inv.mem_undo_append hl node q
      rw [hnode, hc.mem_node_iff ht hcommit, not_not, update_self, Option.or_eq_none_iff,
        UpdateChain.Inv.lookup_recorded_eq_none _ _ hrs hp]
      refine ⟨And.left, fun hskip => ⟨hskip, ?_⟩⟩
      -- nobody has written rows of the vector
      obtain ⟨l', hvec, -⟩ := hinv.vectors v
      cases hvec with
      | empty _ hwr => exact hwr t ht p.1
      | chain root l' hshp => cases hskip.1.symm.trans hshp.root_eq

end UpdateState

/-! ## A row of a vector -/

/-- A stable sort. -/
def IndexSort.stable : IndexSort where
  sort ids l := l.mergeSort fun i j => ids i ≤ ids j
  perm _ l := mergeSort_perm l _
  sorted ids l := by
    have h : (l.mergeSort fun i j => decide (ids i ≤ ids j)).Pairwise fun i j => decide (ids i ≤ ids j) = true :=
      pairwise_mergeSort (fun i j k hij hjk =>
        decide_eq_true ((of_decide_eq_true hij).trans (of_decide_eq_true hjk))) (fun i j => by
          rw [Bool.or_eq_true, decide_eq_true_iff, decide_eq_true_iff]
          exact le_total _ _) l
    exact h.imp of_decide_eq_true

/-- An update of the first row. -/
def UpdateVector.single (x : T) : UpdateVector T := ⟨1, fun _ => 0, fun _ => some x⟩

theorem UpdateVector.single_inVector (x : T) : (single x).InVector 0 0 :=
  fun _ _ _ => ⟨Nat.zero_le _, Nat.succ_pos _⟩

theorem UpdateSegment.writesOf_single (chains : ℕ → UpdateChain T) (x : T) :
    (⟨0, chains⟩ : UpdateSegment T).writesOf .stable (.single x) = some (0, [(0, some x)]) := by
  have hsort : sortSelectionVector .stable (UpdateVector.single x).ids (selectValid (.single x)) = [0] :=
    if_pos (pairwise_singleton _ _)
  rw [writesOf, hsort]
  dsimp only
  rw [UpdateVector.single, Nat.sub_self, Nat.zero_div, Nat.zero_mul]
  rfl

namespace UpdateState

/-- All rows have the value 5. -/
def fives : ℕ → ℕ → Cell ℕ := fun _ _ => some 5

/-- Two transactions have started. -/
def twoStarted : UpdateState ℕ :=
  ⟨⟨4, transactionIdStart + 2, [⟨transactionIdStart + 1, 3⟩, ⟨transactionIdStart, 2⟩], none⟩,
    ⟨0, fun _ => ⟨none, fun _ => ⟨0, []⟩, .empty, 0⟩⟩, [],
    update (update (fun _ _ => none) transactionIdStart fun _ => none) (transactionIdStart + 1)
      fun _ => none, []⟩

theorem reachable_twoStarted : Reachable Init (Next .stable fives) twoStarted :=
  .step (.step (.start (s := ⟨.new, twoStarted.segment, [], fun _ _ => none, []⟩) ⟨rfl, fun _ => rfl, rfl, rfl⟩)
    (.start _ ⟨transactionIdStart, 2⟩ _ rfl rfl)) (.start _ ⟨transactionIdStart + 1, 3⟩ _ rfl rfl)

/-- The second transaction has updated the first row. -/
def oneUpdated : UpdateState ℕ := { twoStarted with
    segment := twoStarted.setChain 0 ((twoStarted.segment.chains 0).createRoot (fives 0)
      ⟨transactionIdStart + 1, 3⟩ [(0, some 7)])
    undo := [(0, 1)]
    written := update twoStarted.written (transactionIdStart + 1) fun k =>
      (twoStarted.segment.recorded .stable fives (.single 7) k).or (twoStarted.written (transactionIdStart + 1) k) }

theorem twoStarted_update : twoStarted.segment.update .stable fives ⟨transactionIdStart + 1, 3⟩ (.single 7) =
    some ⟨oneUpdated.segment, none, some (0, 1)⟩ := by
  rfl

theorem next_oneUpdated : Next .stable fives twoStarted oneUpdated :=
  .update _ ⟨transactionIdStart + 1, 3⟩ (.single 7) 0 ⟨oneUpdated.segment, none, some (0, 1)⟩ mem_cons_self
    (fun _ => nofun) (UpdateVector.single_inVector 7) twoStarted_update

/-- The other transaction still reads the value from before, and the update is not lost. -/
theorem fetch_eq_snapshot_oneUpdated : ∃ result,
    (oneUpdated.segment.chains 0).fetchUpdates ⟨transactionIdStart, 2⟩ (fives 0) = some result ∧
      result 0 = some 5 := by
  obtain ⟨result, hfetch, hrow⟩ := (fetch_eq_snapshot (reachable_twoStarted.step next_oneUpdated)).1
    ⟨transactionIdStart, 2⟩ (by decide) (fun _ => nofun) (by decide) 0
  exact ⟨result, hfetch, (hrow 0).2⟩

theorem fetch_repeats_oneUpdated : ∃ result result',
    (twoStarted.segment.chains 0).fetchUpdates ⟨transactionIdStart, 2⟩ (fives 0) = some result ∧
      (oneUpdated.segment.chains 0).fetchUpdates ⟨transactionIdStart, 2⟩ (fives 0) = some result' ∧
      result' 0 = result 0 := by
  obtain ⟨result, result', h, h', hrow⟩ := fetch_repeats reachable_twoStarted (.step (.start rfl) next_oneUpdated)
    (t := ⟨transactionIdStart, 2⟩) (by decide) (by decide) (fun _ => nofun) (fun _ => nofun) (by decide) 0
  exact ⟨result, result', h, h', (hrow 0 rfl).1⟩

theorem update_conflict_oneUpdated : ∃ r,
    oneUpdated.segment.update .stable fives ⟨transactionIdStart, 2⟩ (.single 6) = some r ∧ r.error ≠ none ∧
      r.segment = oneUpdated.segment := by
  obtain ⟨r, hr, herror, hsm, -⟩ := update_conflict (reachable_twoStarted.step next_oneUpdated)
    (t := ⟨transactionIdStart, 2⟩) (by decide) (fun _ => nofun) (UpdateVector.single_inVector 6)
  have hblocked : r.error ≠ none := by
    refine herror.2 ⟨0, Nat.one_pos, rfl, 1, mem_cons_self, mem_cons_self,
      .inl ⟨⟨transactionIdStart + 1, 3⟩, mem_cons_self, by decide, .inl rfl⟩⟩
  exact ⟨r, hr, hblocked, (hsm hblocked).1⟩

/-- A transaction updates a row to its value, which is skipped, and commits after another one that has updated the
    row: the value of the latter remains. -/
theorem fetchRow_skipped : ∃ (s s' : UpdateState ℕ) (t t' : TransactionData),
    Reachable Init (Next .stable fives) s ∧ t ∈ s.transactions.active ∧
      s.segment.update .stable fives t (.single 5) = some ⟨s.segment, none, none⟩ ∧
      Reachable (· = s) (Next .stable fives) s' ∧
      s'.history.map (fun c => (c.id, c.start)) = [(5, t.startTime), (4, 3)] ∧
      t' ∈ s'.transactions.active ∧ 5 < t'.startTime ∧
      (s'.segment.chains 0).fetchRow t' 0 (fives 0 0) = some (some 7) := by
  have h₀ : Reachable (· = twoStarted) (Next .stable fives) twoStarted := .start rfl
  have h₁ := h₀.step next_oneUpdated
  have h₂ := h₁.step (.startCommit _ ⟨transactionIdStart + 1, 3⟩ ⟨mem_cons_self, rfl, by decide⟩)
  have h₃ := h₂.step (.commitUpdate _ ⟨transactionIdStart + 1, 3⟩ 4 0 1 rfl mem_cons_self rfl)
  have h₄ := h₃.step (.commit _ ⟨transactionIdStart + 1, 3⟩ 4 rfl (by decide))
  have h₅ := h₄.step (.startCommit _ ⟨transactionIdStart, 2⟩ ⟨by decide, rfl, by decide⟩)
  have h₆ := h₅.step (.commit _ ⟨transactionIdStart, 2⟩ 5 rfl (by decide))
  have h₇ := h₆.step (.start _ ⟨transactionIdStart + 2, 6⟩ _ rfl rfl)
  have hupd : twoStarted.segment.update .stable fives ⟨transactionIdStart, 2⟩ (.single 5) =
      some ⟨twoStarted.segment, none, none⟩ := by
    have hwrs : twoStarted.segment.writesOf .stable (.single 5) = some (0, [(0, some 5)]) :=
      UpdateSegment.writesOf_single _ 5
    change some (UpdateResult.mk (twoStarted.setChain 0 (twoStarted.segment.chains 0)) none none) = _
    rw [setChain, update_eq_self]
  exact ⟨twoStarted, _, ⟨transactionIdStart, 2⟩, ⟨transactionIdStart + 2, 6⟩, reachable_twoStarted, by decide,
    hupd, h₇, rfl, mem_cons_self, by decide, rfl⟩

end UpdateState

end WfOpt

import WfOpt.Storage.UpdateSegment

/-!
# The shape of update chains

An update writes sorted rows of one vector, each row once (`UpdateVector.InVector`, `UpdateSegment.writesOf_spec`).
There is a conflict if, and only if, a version that the transaction does not see has one of the rows
(`checkForConflicts_eq_error`). Nodes are linked behind the root, and have rows of the vector, in order
(`UpdateChain.Shape`).
-/

namespace WfOpt

open List Function

variable {T : Type*}

/-! ## The rows of an update -/

section Writes

variable {ids : ℕ → ℕ} {sel : List ℕ}

theorem eliminateDuplicates_spec (l : List ℕ) : ∀ {prev : ℕ}, (∀ i ∈ l, ids prev ≤ ids i) →
    l.Pairwise (fun i j => ids i ≤ ids j) → (eliminateDuplicates ids prev l).Pairwise (fun i j => ids i < ids j) ∧
        (∀ i ∈ eliminateDuplicates ids prev l, i ∈ l ∧ ids prev < ids i) ∧
          ∀ i ∈ l, ids i = ids prev ∨ ∃ j ∈ eliminateDuplicates ids prev l, ids j = ids i := by
  induction l with
  | nil => exact fun _ _ => ⟨.nil, fun _ h => absurd h not_mem_nil, fun _ h => absurd h not_mem_nil⟩
  | cons i l ih =>
    intro prev hprev hsort
    obtain ⟨hi, hl⟩ := pairwise_cons.1 hsort
    obtain ⟨hlt, hmem, hall⟩ := ih hi hl
    rw [eliminateDuplicates]
    by_cases heq : ids prev = ids i
    · rw [if_neg fun hne => hne heq, heq]
      refine ⟨hlt, fun j hj => ⟨mem_cons_of_mem _ (hmem j hj).1, (hmem j hj).2⟩, fun j hj => ?_⟩
      rcases mem_cons.1 hj with rfl | hj
      · exact .inl rfl
      · exact hall j hj
    · rw [if_pos heq]
      have hprev_lt : ids prev < ids i := (hprev i mem_cons_self).lt_of_ne heq
      refine ⟨pairwise_cons.2 ⟨fun j hj => (hmem j hj).2, hlt⟩, fun j hj => ?_, fun j hj => .inr ?_⟩
      · rcases mem_cons.1 hj with rfl | hj
        · exact ⟨mem_cons_self, hprev_lt⟩
        · exact ⟨mem_cons_of_mem _ (hmem j hj).1, hprev_lt.trans (hmem j hj).2⟩
      · rcases mem_cons.1 hj with rfl | hj
        · exact ⟨j, mem_cons_self, rfl⟩
        · rcases hall j hj with heq' | ⟨k, hk, hkj⟩
          · exact ⟨i, mem_cons_self, heq'.symm⟩
          · exact ⟨k, mem_cons_of_mem _ hk, hkj⟩

/-- Each row is selected once, and they are in order. -/
theorem sortSelectionVector_spec (sort : IndexSort) (ids : ℕ → ℕ) (sel : List ℕ) :
    (sortSelectionVector sort ids sel).Pairwise (fun i j => ids i < ids j) ∧
      (∀ i ∈ sortSelectionVector sort ids sel, i ∈ sel) ∧
        ∀ i ∈ sel, ∃ j ∈ sortSelectionVector sort ids sel, ids j = ids i := by
  rw [sortSelectionVector]
  by_cases hsorted : sel.Pairwise fun i j => ids i < ids j
  · rw [if_pos hsorted]
    exact ⟨hsorted, fun _ => id, fun i hi => ⟨i, hi, rfl⟩⟩
  · rw [if_neg hsorted]
    have hperm := sort.perm ids sel
    have hsort := sort.sorted ids sel
    cases hl : sort.sort ids sel with
    | nil =>
      rw [hl] at hperm
      rw [hperm.symm.eq_nil]
      exact ⟨.nil, fun _ => id, fun _ h => absurd h not_mem_nil⟩
    | cons first rest =>
      rw [hl] at hperm hsort
      obtain ⟨hfst, hrst⟩ := pairwise_cons.1 hsort
      obtain ⟨hlt, hmem, hall⟩ := eliminateDuplicates_spec rest hfst hrst
      refine ⟨pairwise_cons.2 ⟨fun j hj => (hmem j hj).2, hlt⟩, fun i hi => ?_, fun i hi => ?_⟩
      · rcases mem_cons.1 hi with rfl | hi
        · exact hperm.subset mem_cons_self
        · exact hperm.subset (mem_cons_of_mem _ (hmem i hi).1)
      · rcases mem_cons.1 (hperm.symm.subset hi) with rfl | hi
        · exact ⟨i, mem_cons_self, rfl⟩
        · rcases hall i hi with heq | ⟨j, hj, hji⟩
          · exact ⟨first, mem_cons_self, heq.symm⟩
          · exact ⟨j, mem_cons_of_mem _ hj, hji⟩

theorem mem_selectValid {u : UpdateVector T} {i : ℕ} :
    i ∈ UpdateSegment.selectValid u ↔ i < u.count ∧ (u.data i).isSome = true := by
  rw [UpdateSegment.selectValid, mem_filter, mem_range]

/-- The rows that are updated are all in one vector of the segment. -/
def UpdateVector.InVector (u : UpdateVector T) (start v : ℕ) : Prop := ∀ i < u.count, (u.data i).isSome = true →
    start + v * standardVectorSize ≤ u.ids i ∧ u.ids i < start + (v + 1) * standardVectorSize

/-- The row in a vector, and its value, which the update has at an index. -/
def UpdateVector.entry (u : UpdateVector T) (start v i : ℕ) : ℕ × Cell T :=
  (u.ids i - (start + v * standardVectorSize), u.data i)

/-- Each row that has a value is written with one of its values. -/
theorem UpdateSegment.writesOf_spec (s : UpdateSegment T) (sort : IndexSort) {u : UpdateVector T} {v w : ℕ}
    {writes : List (ℕ × Cell T)} (hu : u.InVector s.start v) (h : s.writesOf sort u = some (w, writes)) :
    w = v ∧ RowsOf writes ∧ (∀ p ∈ writes, ∃ i < u.count, (u.data i).isSome = true ∧ p = u.entry s.start v i) ∧
        ∀ i < u.count, (u.data i).isSome = true → ∃ p ∈ writes, p.1 = (u.entry s.start v i).1 := by
  obtain ⟨hlt, hmem, hall⟩ := sortSelectionVector_spec sort u.ids (selectValid u)
  rw [writesOf] at h
  cases hl : sortSelectionVector sort u.ids (selectValid u) with
  | nil =>
    rw [hl] at h
    exact nomatch h
  | cons first rest =>
    rw [hl] at h hlt hmem hall
    have hrow : ∀ i ∈ first :: rest, s.start + v * standardVectorSize ≤ u.ids i ∧
        u.ids i < s.start + (v + 1) * standardVectorSize := fun i hi =>
      hu i (mem_selectValid.1 (hmem i hi)).1 (mem_selectValid.1 (hmem i hi)).2
    have hv : (u.ids first - s.start) / standardVectorSize = v := by
      have hfst := hrow first mem_cons_self
      exact Nat.div_eq_of_lt_le (by omega) (by omega)
    dsimp only at h
    rw [hv] at h
    obtain ⟨rfl, rfl⟩ := Prod.mk.inj (Option.some.inj h)
    refine ⟨rfl, ⟨?_, fun p hp => ?_⟩, fun p hp => ?_, fun i hi hvld => ?_⟩
    · refine pairwise_map.2 (hlt.imp_of_mem fun {i j} hi hj hij => ?_)
      have hi := (hrow i hi).1
      omega
    · obtain ⟨i, hi, rfl⟩ := mem_map.1 hp
      have hi := hrow i hi
      rw [Nat.add_mul, Nat.one_mul] at hi
      omega
    · obtain ⟨i, hi, rfl⟩ := mem_map.1 hp
      have hi' := mem_selectValid.1 (hmem i hi)
      exact ⟨i, hi'.1, hi'.2, rfl⟩
    · obtain ⟨j, hj, hji⟩ := hall i (mem_selectValid.2 ⟨hi, hvld⟩)
      refine ⟨_, mem_map.2 ⟨j, hj, rfl⟩, ?_⟩
      rw [UpdateVector.entry, hji]

/-- Nothing is written if no row has a value. -/
theorem UpdateSegment.writesOf_eq_none (s : UpdateSegment T) (sort : IndexSort) {u : UpdateVector T}
    (h : s.writesOf sort u = none) {i : ℕ} (hi : i < u.count) : (u.data i).isSome = false := by
  obtain ⟨-, -, hall⟩ := sortSelectionVector_spec sort u.ids (selectValid u)
  cases hvld : (u.data i).isSome with
  | false => rfl
  | true =>
    obtain ⟨j, hj, -⟩ := hall i (mem_selectValid.2 ⟨hi, hvld⟩)
    rw [writesOf] at h
    cases hl : sortSelectionVector sort u.ids (selectValid u) with
    | nil => exact absurd (hl ▸ hj) not_mem_nil
    | cons first rest =>
      rw [hl] at h
      exact nomatch h

end Writes

/-! ## Conflicts -/

section Conflicts

variable {info : ℕ → UpdateInfo T} {t : TransactionData} {ids : List ℕ}

/-- A version that the transaction does not see has one of the rows. -/
def UpdateInfo.Conflicts (info : UpdateInfo T) (t : TransactionData) (ids : List ℕ) : Prop :=
  info.versionNumber ≠ t.transactionId ∧ t.startTime < info.versionNumber ∧ ∃ id ∈ ids, id ∈ info.tuples.map Prod.fst

theorem checkForConflicts_cons {p : ℕ} (l : List ℕ) (node : Option ℕ) (hids : ids.Pairwise (· < ·))
    (hp : RowsOf (info p).tuples) : ((info p).Conflicts t ids →
      checkForConflicts info t ids (p :: l) node = .error "Conflict on update!") ∧
    (¬(info p).Conflicts t ids → checkForConflicts info t ids (p :: l) node =
      checkForConflicts info t ids l (if (info p).versionNumber = t.transactionId then some p else node)) := by
  have hloop := conflictLoop_eq_true (ids.length + (info p).tuples.length) hids
    (increasing_iff.1 hp.increasing) (by rw [length_map])
  rw [checkForConflicts]
  by_cases hown : (info p).versionNumber = t.transactionId
  · rw [if_pos hown, if_pos hown]
    exact ⟨fun h => absurd hown h.1, fun _ => rfl⟩
  · rw [if_neg hown, if_neg hown]
    constructor
    · intro h
      rw [if_pos]
      rw [decide_eq_true h.2.1, Bool.true_and]
      exact hloop.2 h.2.2
    · intro h
      refine if_neg fun hconf => h ?_
      rw [Bool.and_eq_true] at hconf
      exact ⟨hown, of_decide_eq_true hconf.1, hloop.1 hconf.2⟩

/-- An update fails if, and only if, one of the versions conflicts with it. -/
theorem checkForConflicts_eq_error (hids : ids.Pairwise (· < ·)) (l : List ℕ) :
    ∀ {node : Option ℕ} {message : String}, (∀ p ∈ l, RowsOf (info p).tuples) →
      (checkForConflicts info t ids l node = .error message ↔
        message = "Conflict on update!" ∧ ∃ p ∈ l, (info p).Conflicts t ids) := by
  induction l with
  | nil => exact fun _ => ⟨(fun h => nomatch h), fun ⟨_, _, h, _⟩ => absurd h not_mem_nil⟩
  | cons p l ih =>
    intro node message hrs
    obtain ⟨herror, hok⟩ := checkForConflicts_cons l node hids (t := t) (hrs p mem_cons_self)
    by_cases hp : (info p).Conflicts t ids
    · rw [herror hp]
      refine ⟨fun h => ⟨?_, p, mem_cons_self, hp⟩, fun ⟨h, _⟩ => h ▸ rfl⟩
      exact (Except.error.inj h).symm
    · rw [hok hp, ih fun q hq => hrs q (mem_cons_of_mem _ hq)]
      refine and_congr_right fun _ => ⟨fun ⟨q, hq, h⟩ => ⟨q, mem_cons_of_mem _ hq, h⟩, fun ⟨q, hq, h⟩ => ?_⟩
      refine ⟨q, (mem_cons.1 hq).resolve_left ?_, h⟩
      rintro rfl
      exact hp h

/-- Otherwise the node of the transaction is found, if it has one. -/
theorem checkForConflicts_eq_ok (hids : ids.Pairwise (· < ·)) (l : List ℕ) :
    ∀ {node r : Option ℕ}, (∀ p ∈ l, RowsOf (info p).tuples) → checkForConflicts info t ids l node = .ok r →
      (∀ p ∈ l, ¬(info p).Conflicts t ids) ∧ ((∃ p ∈ l, r = some p ∧ (info p).versionNumber = t.transactionId) ∨
          r = node ∧ ∀ p ∈ l, (info p).versionNumber ≠ t.transactionId) := by
  induction l with
  | nil =>
    intro node r _ h
    exact ⟨fun _ h => absurd h not_mem_nil, .inr ⟨(Except.ok.inj h).symm, fun _ h =>
      absurd h not_mem_nil⟩⟩
  | cons p l ih =>
    intro node r hrs h
    obtain ⟨herror, hok⟩ := checkForConflicts_cons l node hids (t := t) (hrs p mem_cons_self)
    have hp : ¬(info p).Conflicts t ids := fun hp => nomatch (herror hp).symm.trans h
    rw [hok hp] at h
    obtain ⟨hfree, hr⟩ := ih (fun q hq => hrs q (mem_cons_of_mem _ hq)) h
    refine ⟨fun q hq => ?_, ?_⟩
    · rcases mem_cons.1 hq with rfl | hq
      · exact hp
      · exact hfree q hq
    · rcases hr with ⟨q, hq, hr, hver⟩ | ⟨hr, hver⟩
      · exact .inl ⟨q, mem_cons_of_mem _ hq, hr, hver⟩
      · by_cases hown : (info p).versionNumber = t.transactionId
        · rw [if_pos hown] at hr
          exact .inl ⟨p, mem_cons_self, hr, hown⟩
        · rw [if_neg hown] at hr
          refine .inr ⟨hr, fun q hq => ?_⟩
          rcases mem_cons.1 hq with rfl | hq
          · exact hown
          · exact hver q hq

end Conflicts

/-! ## Chains -/

namespace UpdateChain

/-- The version of a node -/
def version (c : UpdateChain T) (p : ℕ) : ℕ := (c.info p).versionNumber

/-- The value that a node has of a row. -/
def old (c : UpdateChain T) (p k : ℕ) : Option (Cell T) := lookup k (c.info p).tuples

/-- The newest value of a row that has been updated. -/
def newest (c : UpdateChain T) (k : ℕ) : Option (Cell T) := c.root.bind fun root => c.old root k

/-- The nodes of a chain are linked behind the root, and have rows of a vector in order. -/
structure Shape (c : UpdateChain T) (root : ℕ) (l : List ℕ) : Prop where
  root_eq : c.root = some root
  linked : c.links.Linked (root :: l)
  nodup : (root :: l).Nodup
  lt_allocated : ∀ p ∈ root :: l, p < c.allocated
  version_root : (c.info root).versionNumber = transactionIdStart - 1
  rows : ∀ p ∈ root :: l, RowsOf (c.info p).tuples

variable {c : UpdateChain T} {root p : ℕ} {l : List ℕ} {t : TransactionData} (h : c.Shape root l)

namespace Shape

include h

theorem ne_root (hp : p ∈ l) : p ≠ root := fun heq => (nodup_cons.1 h.nodup).1 (heq ▸ hp)

theorem nodup_tail : l.Nodup := (nodup_cons.1 h.nodup).2

theorem length_le : (root :: l).length ≤ c.allocated := by
  have hsub : root :: l ⊆ range c.allocated := fun p hp => mem_range.2 (h.lt_allocated p hp)
  have hle := (subperm_of_subset h.nodup hsub).length_le
  rwa [length_range] at hle

/-- The loops over the nodes end. -/
theorem nodes_root : c.nodes (some root) = some (root :: l) :=
  h.linked.walk (root :: l) h.length_le

theorem nodes_next : c.nodes (c.links.next root) = some l := by
  rw [nodes, h.linked.next_eq]
  exact h.linked.tail.walk l ((Nat.le_succ _).trans h.length_le)

section

variable (hroot : (c.info root).appliesToTransaction t = true)

include hroot

/-- The nodes whose values a transaction takes: the root, and those behind it. -/
theorem updatesForTransaction_eq : c.updatesForTransaction t root =
      some (c.info root :: (l.filter fun p => (c.info p).appliesToTransaction t).map c.info) := by
  have hfilt : ((root :: l).map c.info).filter (fun info => info.appliesToTransaction t) =
      c.info root :: (l.map c.info).filter fun info => info.appliesToTransaction t :=
    filter_cons_of_pos hroot
  rw [updatesForTransaction, h.nodes_root, Option.map_some, hfilt, filter_map]
  rfl

theorem fetchRow_eq (row : ℕ)
    (result : Cell T) : c.fetchRow t row result =
      some ((l.filter fun p => (c.info p).appliesToTransaction t).foldl (fun x p => (c.old p row).getD x)
        ((c.old root row).getD result)) := by
  rw [fetchRow, h.root_eq]
  dsimp only
  rw [h.updatesForTransaction_eq hroot, Option.map_some, foldl_cons, foldl_map]
  rfl

end

/-- `FetchUpdates` gives each row the value that `FetchRow` gives it. -/
theorem fetchUpdates_eq (hroot : (c.info root).appliesToTransaction t = true)
    (result : ℕ → Cell T) : ∃ result', c.fetchUpdates t result = some result' ∧
      ∀ k, c.fetchRow t k (result k) = some (result' k) := by
  have hfold : ∀ (l' : List ℕ) (result : ℕ → Cell T) (k : ℕ), (∀ p ∈ l', p ∈ root :: l) →
      (l'.map c.info).foldl mergeUpdateInfo result k = l'.foldl (fun x p => (c.old p k).getD x) (result k) := by
    intro l'
    induction l' with
    | nil => exact fun _ _ _ => rfl
    | cons p l' ih =>
      intro result k hl'
      rw [map_cons, foldl_cons, foldl_cons, ih _ k fun q hq => hl' q (mem_cons_of_mem _ hq),
        mergeUpdateInfo_eq (h.rows p (hl' p mem_cons_self))]
      rfl
  rw [fetchUpdates, h.root_eq]
  dsimp only
  rw [h.updatesForTransaction_eq hroot, Option.map_some]
  refine ⟨_, rfl, fun k => ?_⟩
  have hmem : ∀ p ∈ root :: l.filter fun p => (c.info p).appliesToTransaction t, p ∈ root :: l := fun p hp => by
    rcases mem_cons.1 hp with rfl | hp
    · exact mem_cons_self
    · exact mem_cons_of_mem _ (mem_filter.1 hp).1
  rw [h.fetchRow_eq hroot, ← map_cons, hfold _ _ k hmem, foldl_cons]

/-! ### Operations -/

/-- Only the pointers, and what is in the nodes, matter. -/
theorem congr {c' : UpdateChain T} {l' : List ℕ} (hroot : c'.root = c.root)
    (hlinked : c'.links.Linked (root :: l')) (hl : l'.Sublist l) (hallocated : c'.allocated = c.allocated)
    (hver : (c'.info root).versionNumber = (c.info root).versionNumber)
    (hrs : ∀ p ∈ root :: l, RowsOf (c'.info p).tuples) : c'.Shape root l' where
  root_eq := hroot.trans h.root_eq
  linked := hlinked
  nodup := h.nodup.sublist (hl.cons_cons root)
  lt_allocated p hp := hallocated ▸ h.lt_allocated p ((hl.cons_cons root).mem hp)
  version_root := hver.trans h.version_root
  rows p hp := hrs p ((hl.cons_cons root).mem hp)

end Shape

theorem setTuples_info (c : UpdateChain T) (p : ℕ) (tuples : List (ℕ × Cell T)) (q : ℕ) :
    ((c.setTuples p tuples).info q).versionNumber = (c.info q).versionNumber ∧
      ((c.setTuples p tuples).info q).tuples = if q = p then tuples else (c.info q).tuples := by
  rw [setTuples]
  dsimp only
  by_cases hq : q = p
  · rw [hq, update_self, if_pos rfl]
    exact ⟨rfl, rfl⟩
  · rw [update_of_ne hq, if_neg hq]
    exact ⟨rfl, rfl⟩

theorem setTuples_info_of_ne (c : UpdateChain T) {p q : ℕ} (h : q ≠ p) (tuples : List (ℕ × Cell T)) :
    (c.setTuples p tuples).info q = c.info q := update_of_ne h _ _

theorem setVersion_info (c : UpdateChain T) (p id : ℕ) (q : ℕ) :
    ((c.setVersion p id).info q).versionNumber = Function.update (fun q => (c.info q).versionNumber) p id q ∧
      ((c.setVersion p id).info q).tuples = (c.info q).tuples := by
  rw [setVersion]
  dsimp only
  by_cases hq : q = p
  · rw [hq, update_self, update_self]
    exact ⟨rfl, rfl⟩
  · rw [update_of_ne hq, update_of_ne hq]
    exact ⟨rfl, rfl⟩

namespace Shape

include h

theorem setTuples {tuples : List (ℕ × Cell T)} (htuples : RowsOf tuples) (p : ℕ) :
    (c.setTuples p tuples).Shape root l :=
  h.congr rfl h.linked (List.Sublist.refl l) rfl (c.setTuples_info p tuples root).1 fun q hq => by
    rw [(c.setTuples_info p tuples q).2]
    by_cases hqp : q = p
    · rw [if_pos hqp]
      exact htuples
    · rw [if_neg hqp]
      exact h.rows q hq

theorem setVersion (hp : p ∈ l) (id : ℕ) : (c.setVersion p id).Shape root l := by
  refine h.congr rfl h.linked (List.Sublist.refl l) rfl ?_ fun q hq => ?_
  · rw [(c.setVersion_info p id root).1, update_of_ne (h.ne_root hp).symm]
  · rw [(c.setVersion_info p id q).2]
    exact h.rows q hq

theorem cleanupUpdate (hp : p ∈ l) : (c.cleanupUpdate p).Shape root (l.erase p) :=
  h.congr rfl (h.linked.unlink l h.nodup hp) erase_sublist rfl rfl h.rows

/-- The rows of the root get their values of the node that is rolled back. -/
theorem rollbackUpdate (hp : p ∈ l) (hmem : ∀ k, c.old p k ≠ none → c.old root k ≠ none) :
    (c.rollbackUpdate p).Shape root (l.erase p) ∧
      (∀ q, ((c.rollbackUpdate p).info q).versionNumber = (c.info q).versionNumber) ∧
      (∀ q, q ≠ root → (c.rollbackUpdate p).info q = c.info q) ∧
        ∀ k, (c.rollbackUpdate p).old root k = (c.old p k).or (c.old root k) := by
  have hpl : p ∈ root :: l := mem_cons_of_mem _ hp
  have hroot : root ∈ root :: l := mem_cons_self
  have hinc := (h.rows root hroot).increasing
  obtain ⟨hfst, hlook⟩ := map_fst_rollbackLoop (c.info p).tuples (h.rows p hpl).increasing hinc fun q hq =>
    hinc.lookup_ne_none_iff.1 (hmem q.1 ((h.rows p hpl).increasing.lookup_ne_none_iff.2 (mem_map_of_mem hq)))
  have hrs : RowsOf (rollbackLoop (c.info root).tuples (c.info p).tuples) := by
    refine ⟨increasing_iff.2 (hfst ▸ increasing_iff.1 hinc), fun q hq => ?_⟩
    obtain ⟨r, hr, hrq⟩ := mem_map.1 (hfst ▸ mem_map_of_mem hq : q.1 ∈ _)
    exact hrq ▸ (h.rows root hroot).lt r hr
  have hinf := c.setTuples_info root (rollbackLoop (c.info root).tuples (c.info p).tuples)
  rw [UpdateChain.rollbackUpdate, h.root_eq]
  refine ⟨(h.setTuples hrs root).cleanupUpdate hp, fun q => (hinf q).1, fun q hq => ?_, fun k => ?_⟩
  · exact c.setTuples_info_of_ne hq _
  · change lookup k (((c.setTuples root _).info root).tuples) = _
    rw [(hinf root).2, if_pos rfl]
    exact hlook k

theorem createNode (t : TransactionData) : (c.createNode t root).Shape root (c.allocated :: l) ∧
      (c.createNode t root).info c.allocated = ⟨t.transactionId, []⟩ ∧
        ∀ q ∈ root :: l, (c.createNode t root).info q = c.info q := by
  have hfr : c.allocated ∉ root :: l := fun hmem => lt_irrefl _ (h.lt_allocated _ hmem)
  have hinf : ∀ q ∈ root :: l, (c.createNode t root).info q = c.info q := fun q hq =>
    update_of_ne (fun heq : q = c.allocated => hfr (heq ▸ hq)) _ _
  have hnew : (c.createNode t root).info c.allocated = ⟨t.transactionId, []⟩ := update_self ..
  refine ⟨⟨h.root_eq, h.linked.insertAfter h.nodup hfr, ?_, fun q hq => ?_, ?_, fun q hq => ?_⟩, hnew, hinf⟩
  · rw [nodup_cons, mem_cons, not_or]
    rw [mem_cons, not_or] at hfr
    exact ⟨⟨Ne.symm hfr.1, (nodup_cons.1 h.nodup).1⟩, nodup_cons.2 ⟨hfr.2, h.nodup_tail⟩⟩
  · rcases mem_cons.1 hq with rfl | hq
    · exact (h.lt_allocated q mem_cons_self).trans (Nat.lt_succ_self _)
    · rcases mem_cons.1 hq with rfl | hq
      · exact Nat.lt_succ_self _
      · exact (h.lt_allocated q (mem_cons_of_mem _ hq)).trans (Nat.lt_succ_self _)
  · rw [hinf root mem_cons_self, h.version_root]
  · by_cases hqa : q = c.allocated
    · rw [hqa, hnew]
      exact ⟨.nil, fun _ hr => absurd hr not_mem_nil⟩
    · have hq' : q ∈ root :: l := by
        rcases mem_cons.1 hq with rfl | hq
        · exact mem_cons_self
        · exact mem_cons_of_mem _ ((mem_cons.1 hq).resolve_left hqa)
      rw [hinf q hq']
      exact h.rows q hq'

/-- The root gets the new values, and the node of the transaction the ones from before. -/
theorem mergeUpdate (hp : p ∈ l) (base : ℕ → Cell T) {writes : List (ℕ × Cell T)} (hwrs : RowsOf writes) :
    (c.mergeUpdate base root p writes).Shape root l ∧
      (∀ q, ((c.mergeUpdate base root p writes).info q).versionNumber = (c.info q).versionNumber) ∧
      (∀ q, q ≠ root → q ≠ p → (c.mergeUpdate base root p writes).info q = c.info q) ∧
      (∀ k, (c.mergeUpdate base root p writes).old p k = (c.old p k).or
        ((lookup k writes).map fun _ => (c.old root k).getD (base k))) ∧
        ∀ k, (c.mergeUpdate base root p writes).old root k = (lookup k writes).or (c.old root k) := by
  have hpr := h.ne_root hp
  have hp' := h.rows p (mem_cons_of_mem _ hp)
  have hroot := h.rows root mem_cons_self
  obtain ⟨hinc, hmem, hlook⟩ := mergeLoop_spec (writes.length + (c.info root).tuples.length)
    hwrs.increasing hroot.increasing le_rfl
  obtain ⟨hinc', hmem', hlook'⟩ := mergeOld_spec base (writes.map Prod.fst)
    (increasing_iff.1 hwrs.increasing) hp'.increasing hroot.increasing
  have hrs : RowsOf (mergeLoop (writes.length + (c.info root).tuples.length) writes (c.info root).tuples) :=
    ⟨hinc, fun q hq => (hmem q hq).elim (hwrs.lt q) (hroot.lt q)⟩
  have hrs' : RowsOf (mergeOld base (writes.map Prod.fst) (c.info p).tuples (c.info root).tuples) := by
    refine ⟨hinc', fun q hq => (hmem' q hq).elim (fun hq => ?_) (hp'.lt q)⟩
    obtain ⟨r, hr, hrq⟩ := mem_map.1 hq
    exact hrq ▸ hwrs.lt r hr
  rw [UpdateChain.mergeUpdate]
  obtain ⟨update, hupd⟩ : ∃ update, update =
      mergeOld base (writes.map Prod.fst) (c.info p).tuples (c.info root).tuples := ⟨_, rfl⟩
  obtain ⟨merged, hmrg⟩ : ∃ merged, merged =
      mergeLoop (writes.length + (c.info root).tuples.length) writes (c.info root).tuples := ⟨_, rfl⟩
  rw [← hupd] at hlook' hrs' ⊢
  rw [← hmrg] at hlook hrs ⊢
  have hinf := c.setTuples_info p update
  have hinf' := (c.setTuples p update).setTuples_info root merged
  refine ⟨(h.setTuples hrs' p).setTuples hrs root, fun q => ((hinf' q).1.trans (hinf q).1),
    fun q hqr hqp => ?_, fun k => ?_, fun k => ?_⟩
  · rw [setTuples_info_of_ne _ hqr, setTuples_info_of_ne _ hqp]
  · rw [old, (hinf' p).2, if_neg hpr, (hinf p).2, if_pos rfl, hlook']
    by_cases hk : k ∈ writes.map Prod.fst
    · obtain ⟨x, hx⟩ := Option.ne_none_iff_exists'.1 (hwrs.increasing.lookup_ne_none_iff.2 hk)
      rw [if_pos hk, hx]
      rfl
    · have hno : lookup k writes = none := by
        by_contra hne
        exact hk (hwrs.increasing.lookup_ne_none_iff.1 hne)
      rw [if_neg hk, hno]
      rfl
  · rw [old, (hinf' root).2, if_pos rfl]
    exact hlook k

omit h in
theorem createRoot (c : UpdateChain T) (base : ℕ → Cell T) (t : TransactionData) {writes : List (ℕ × Cell T)}
    (hwrs : RowsOf writes) : (c.createRoot base t writes).Shape c.allocated [c.allocated + 1] ∧
      ((c.createRoot base t writes).info (c.allocated + 1)).versionNumber = t.transactionId ∧
      (∀ k, (c.createRoot base t writes).old c.allocated k = lookup k writes) ∧
        ∀ k, (c.createRoot base t writes).old (c.allocated + 1) k = (lookup k writes).map fun _ => base k := by
  have hne : c.allocated ≠ c.allocated + 1 := (Nat.lt_succ_self _).ne
  have hroot : (c.createRoot base t writes).info c.allocated = ⟨transactionIdStart - 1, writes⟩ := by
    rw [UpdateChain.createRoot]
    dsimp only
    rw [update_of_ne hne, update_self]
  have hnode : (c.createRoot base t writes).info (c.allocated + 1) =
      ⟨t.transactionId, writes.map fun p => (p.1, base p.1)⟩ := update_self ..
  have hfst : (writes.map fun p => (p.1, base p.1)).map Prod.fst = writes.map Prod.fst := by
    rw [map_map]
    rfl
  have hrs : RowsOf (writes.map fun p => (p.1, base p.1)) := by
    refine ⟨increasing_iff.2 (hfst ▸ increasing_iff.1 hwrs.increasing), fun p hp => ?_⟩
    obtain ⟨q, hq, rfl⟩ := mem_map.1 hp
    exact hwrs.lt q hq
  refine ⟨⟨rfl, ⟨?_, ?_, ?_⟩, ?_, fun p hp => ?_, ?_, fun p hp => ?_⟩, ?_, fun k => ?_, fun k => ?_⟩
  · change Function.update (Function.update _ _ _) _ _ _ = _
    rw [update_of_ne hne, update_self]
  · exact update_self ..
  · exact update_self ..
  · exact nodup_cons.2 ⟨fun hmem => hne (mem_singleton.1 hmem), nodup_singleton _⟩
  · rcases mem_cons.1 hp with rfl | hp
    · exact Nat.lt_succ_of_lt (Nat.lt_succ_self _)
    · exact mem_singleton.1 hp ▸ Nat.lt_succ_self _
  · rw [hroot]
  · rcases mem_cons.1 hp with rfl | hp
    · rw [hroot]
      exact hwrs
    · rw [mem_singleton.1 hp, hnode]
      exact hrs
  · rw [hnode]
  · rw [old, hroot]
  · rw [old, hnode]
    cases hlook : lookup k writes with
    | none =>
      by_contra hsome
      have hmem := hrs.increasing.lookup_ne_none_iff.1 hsome
      rw [hfst] at hmem
      exact hwrs.increasing.lookup_ne_none_iff.2 hmem hlook
    | some x => exact hrs.increasing.lookup_eq_some_iff.2 (mem_map.2 ⟨(k, x), mem_of_lookup hlook, rfl⟩)

end Shape

end UpdateChain

end WfOpt

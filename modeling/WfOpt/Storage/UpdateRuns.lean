import WfOpt.Lib.Transition
import WfOpt.Storage.UpdateShape
import WfOpt.Storage.UpdateVersions

/-!
# Updates and transactions

The rows of a column segment are updated by transactions (`UpdateState.Next`). The history has the writes that are
recorded: an update of a vector without versions skips rows that have their new value already. In all reachable
states, the nodes of each vector are the versions of its rows (`UpdateState.Inv`).
-/

namespace WfOpt

open List Function Option

variable {T : Type*}

/-! ## Runs -/

/-- The rows of a vector that are written: those that have their value already are skipped while there are no
    versions. -/
def UpdateChain.recorded [BEq T] (c : UpdateChain T) (base : ℕ → Cell T) (writes : List (ℕ × Cell T)) :
    List (ℕ × Cell T) :=
  match c.root with
  | none => getEffectiveUpdates base writes
  | some _ => writes

/-- The writes of an update that are recorded, by vector and row. -/
def UpdateSegment.recorded [BEq T] (s : UpdateSegment T) (sort : IndexSort) (base : ℕ → ℕ → Cell T)
    (u : UpdateVector T) (k : ℕ × ℕ) : Option (Cell T) :=
  match s.writesOf sort u with
  | none => none
  | some (v, writes) => if k.1 = v then lookup k.2 ((s.chains v).recorded (base v) writes) else none

/-- A segment and its transactions: the nodes in undo buffers, and what transactions have written and committed. -/
structure UpdateState (T : Type*) where
  transactions : TransactionManager
  segment : UpdateSegment T
  undo : List (ℕ × ℕ)
  written : ℕ → ℕ × ℕ → Option (Cell T)
  history : List (Commit (ℕ × ℕ) (Cell T))

namespace UpdateState

/-- At the start there are no updates. -/
structure Init (s : UpdateState T) : Prop where
  transactions : s.transactions = .new
  root : ∀ v, (s.segment.chains v).root = none
  undo : s.undo = []
  history : s.history = []

/-- The version of a node. -/
def version (s : UpdateState T) (q : ℕ × ℕ) : ℕ := (s.segment.chains q.1).version q.2

/-- The updates of a vector are replaced. -/
def setChain (s : UpdateState T) (v : ℕ) (c : UpdateChain T) : UpdateSegment T :=
  { s.segment with chains := update s.segment.chains v c }

/-- The steps of transactions. No transaction starts while another one commits. A commit replaces the versions of its
    nodes one after another; if it fails, it takes this back, and all nodes are rolled back. -/
inductive Next [BEq T] (sort : IndexSort) (base : ℕ → ℕ → Cell T) : UpdateState T → UpdateState T → Prop
  | start (s : UpdateState T) (t : TransactionData) (m : TransactionManager)
    (hfree : s.transactions.committing = none) (h : s.transactions.startTransaction = some (t, m)) :
    Next sort base s { s with
      transactions := m
      written := update s.written t.transactionId fun _ => none }
  | update (s : UpdateState T) (t : TransactionData) (u : UpdateVector T) (v : ℕ) (r : UpdateResult T)
    (ht : t ∈ s.transactions.active) (hcommit : ∀ c, s.transactions.committing ≠ some (t, c))
    (hu : u.InVector s.segment.start v) (h : s.segment.update sort base t u = some r) :
    Next sort base s { s with
      segment := r.segment
      undo := r.created.toList ++ s.undo
      written := match r.error with
        | none => update s.written t.transactionId fun k =>
            (s.segment.recorded sort base u k).or (s.written t.transactionId k)
        | some _ => s.written }
  | startCommit (s : UpdateState T) (t : TransactionData) (h : s.transactions.MayCommit t) :
    Next sort base s { s with transactions := s.transactions.startCommit t }
  | commitUpdate (s : UpdateState T) (t : TransactionData) (c v p : ℕ)
    (hcommit : s.transactions.committing = some (t, c)) (hp : (v, p) ∈ s.undo)
    (hversion : s.version (v, p) = t.transactionId) :
    Next sort base s { s with segment := s.setChain v ((s.segment.chains v).setVersion p c) }
  | commit (s : UpdateState T) (t : TransactionData) (c : ℕ)
    (hcommit : s.transactions.committing = some (t, c))
    (hdone : ∀ q ∈ s.undo, s.version q ≠ t.transactionId) :
    Next sort base s { s with
      transactions := s.transactions.removeTransaction t
      history := ⟨c, t.startTime, s.written t.transactionId⟩ :: s.history }
  | revertUpdate (s : UpdateState T) (t : TransactionData) (c v p : ℕ)
    (hcommit : s.transactions.committing = some (t, c)) (hp : (v, p) ∈ s.undo)
    (hversion : s.version (v, p) = c) :
    Next sort base s { s with
      segment := s.setChain v ((s.segment.chains v).setVersion p t.transactionId) }
  | abortCommit (s : UpdateState T) (t : TransactionData) (c : ℕ)
    (hcommit : s.transactions.committing = some (t, c)) (hdone : ∀ q ∈ s.undo, s.version q ≠ c) :
    Next sort base s { s with transactions := s.transactions.abortCommit }
  | rollbackUpdate (s : UpdateState T) (t : TransactionData) (v p : ℕ) (ht : t ∈ s.transactions.active)
    (hp : (v, p) ∈ s.undo) (hversion : s.version (v, p) = t.transactionId) :
    Next sort base s { s with
      segment := s.setChain v ((s.segment.chains v).rollbackUpdate p)
      undo := s.undo.filter (· ≠ (v, p))
      written := update s.written t.transactionId fun k =>
        if k.1 = v then none else s.written t.transactionId k }
  | rollback (s : UpdateState T) (t : TransactionData) (ht : t ∈ s.transactions.active)
    (hcommit : ∀ c, s.transactions.committing ≠ some (t, c))
    (hdone : ∀ q ∈ s.undo, s.version q ≠ t.transactionId) :
    Next sort base s { s with transactions := s.transactions.removeTransaction t }
  | cleanupUpdate (s : UpdateState T) (v p : ℕ) (hp : (v, p) ∈ s.undo)
    (hversion : s.transactions.Settled (s.version (v, p))) :
    Next sort base s { s with
      segment := s.setChain v ((s.segment.chains v).cleanupUpdate p)
      undo := s.undo.filter (· ≠ (v, p)) }

end UpdateState

/-! ## Vectors -/

namespace UpdateChain

/-- The nodes of a vector are the versions of its rows. -/
inductive Inv (m : TransactionManager) (base : ℕ → Cell T) (history : List (Commit ℕ (Cell T)))
    (written : ℕ → ℕ → Option (Cell T)) (c : UpdateChain T) : List ℕ → Prop
  | empty (hroot : c.root = none) (hwritten : ∀ t ∈ m.active, ∀ k, written t.transactionId k = none)
    (hhistory : ∀ d ∈ history, ∀ k, d.writes k = none) : Inv m base history written c []
  | chain (root : ℕ) (l : List ℕ) (hshape : c.Shape root l)
    (hversions : Versions m base history written l c.version c.old (c.old root)) :
    Inv m base history written c l

variable {m m' : TransactionManager} {base : ℕ → Cell T} {history history' : List (Commit ℕ (Cell T))}
  {written written' : ℕ → ℕ → Option (Cell T)} {c : UpdateChain T} {l : List ℕ} {t : TransactionData} {p : ℕ}

namespace Inv

section

variable (h : c.Inv m base history written l)

include h

theorem nodup : l.Nodup := by
  cases h with
  | empty => exact .nil
  | chain root l hshape => exact hshape.nodup_tail

theorem version (hp : p ∈ l) :
    (∃ t ∈ m.active, m.Owns t (c.version p)) ∨ ∃ d ∈ history, d.id = c.version p := by
  cases h with
  | empty => exact absurd hp not_mem_nil
  | chain root l hshape hversions => exact hversions.version p hp

theorem manager
    (hwritten : (∀ t ∈ m.active, ∀ k, written t.transactionId k = none) →
      ∀ t ∈ m'.active, ∀ k, written' t.transactionId k = none)
    (hhistory : (∀ t ∈ m.active, ∀ k, written t.transactionId k = none) →
      (∀ d ∈ history, ∀ k, d.writes k = none) → ∀ d ∈ history', ∀ k, d.writes k = none)
    (hversions : ∀ cur, Versions m base history written l c.version c.old cur →
      Versions m' base history' written' l c.version c.old cur) :
    c.Inv m' base history' written' l := by
  cases h with
  | empty hroot hwr' hhist' => exact .empty hroot (hwritten hwr') (hhistory hwr' hhist')
  | chain root l hshape hvers' => exact .chain root l hshape (hversions _ hvers')

end

section

variable (h : c.Inv m base history written l) (hm : m.Past history)

include h hm

/-- Nodes of transactions get another version. -/
theorem setVersion (ht : t ∈ m.active)
    (hp : p ∈ l) (hown : m.Owns t (c.version p)) {id : ℕ} (hid : m.Owns t id) :
    (c.setVersion p id).Inv m base history written l := by
  cases h with
  | empty => exact absurd hp not_mem_nil
  | chain root l hshape hversions =>
    have hinf := c.setVersion_info p id
    have hold : (c.setVersion p id).old = c.old := by
      funext q k
      rw [old, old, (hinf q).2]
    refine .chain root l (hshape.setVersion hp id) ?_
    rw [hold]
    refine hversions.congr_id hm fun q _ => ?_
    rw [UpdateChain.version, (hinf q).1]
    by_cases hqp : q = p
    · rw [hqp, update_self]
      exact .inr ⟨t, ht, hown, hid⟩
    · rw [update_of_ne hqp]
      exact .inl rfl

theorem cleanupUpdate (hp : p ∈ l)
    (hversion : m.Settled (c.version p)) : (c.cleanupUpdate p).Inv m base history written (l.erase p) := by
  cases h with
  | empty => exact absurd hp not_mem_nil
  | chain root l hshape hversions =>
    exact .chain root _ (hshape.cleanupUpdate hp) (hversions.cleanup hm hshape.nodup_tail hversion)

theorem rollbackUpdate (ht : t ∈ m.active)
    (hp : p ∈ l) (hown : m.Owns t (c.version p)) : (c.rollbackUpdate p).Inv m base history
      (Function.update written t.transactionId fun _ => none) (l.erase p) := by
  cases h with
  | empty => exact absurd hp not_mem_nil
  | chain root l hshape hversions =>
    obtain ⟨hshp', hversion, hinf, hroot⟩ := hshape.rollbackUpdate hp (hversions.cur_of_old p hp)
    have hrolled := hversions.rollback hm hshape.nodup_tail ht hp hown hroot
    refine .chain root _ hshp' (hrolled.congr (fun q _ => hversion q) fun q hq => ?_)
    funext k
    rw [old, hinf q (hshape.ne_root (mem_of_mem_erase hq))]
    rfl

end

variable {writes : List (ℕ × Cell T)}

theorem mergeUpdate {root : ℕ} (hshape : c.Shape root l)
    (hversions : Versions m base history written l c.version c.old (c.old root)) (hm : m.Past history)
    (ht : t ∈ m.active) (hcommit : ∀ d, m.committing ≠ some (t, d)) (hp : p ∈ l)
    (hversion : c.version p = t.transactionId) (hwrs : RowsOf writes)
    (hconf : ∀ q ∈ l, ¬(c.info q).Conflicts t (writes.map Prod.fst)) :
    (c.mergeUpdate base root p writes).Inv m base history (Function.update written t.transactionId fun k =>
      (lookup k writes).or (written t.transactionId k)) l := by
  obtain ⟨hshp', hver', hoth, hold, hroot⟩ := hshape.mergeUpdate hp base hwrs
  have hfree : ∀ q ∈ l, q ≠ p → t.startTime < c.version q → ∀ k, lookup k writes ≠ none → c.old q k = none := by
    intro q hq hqp hlt k hk
    by_contra hne
    refine hconf q hq ⟨fun heq => hqp ?_, hlt, k, hwrs.increasing.lookup_ne_none_iff.1 hk,
      (hshape.rows q (mem_cons_of_mem _ hq)).increasing.lookup_ne_none_iff.1 hne⟩
    exact hversions.unique t ht q hq p hp (.inl heq) (.inl hversion)
  -- outside of the list, only what the root has is different
  have hwrt : Versions m base history _ l c.version
      (fun q => if q = root then c.old root else (c.mergeUpdate base root p writes).old q)
      ((c.mergeUpdate base root p writes).old root) :=
    hversions.write hm hshape.nodup_tail ht hcommit hp hversion hfree (fun q hqp => ?_) (fun k => ?_) hroot
  · refine .chain root l hshp' (hwrt.congr (fun q _ => hver' q) fun q hq => ?_)
    rw [if_neg (hshape.ne_root hq)]
  · by_cases hqr : q = root
    · rw [if_pos hqr, hqr]
    · funext k
      rw [if_neg hqr, old, hoth q hqr hqp]
      rfl
  · rw [if_neg (hshape.ne_root hp), hold]

theorem recorded_rows [BEq T] (c : UpdateChain T) (base : ℕ → Cell T)
    (hwrs : RowsOf writes) : RowsOf (c.recorded base writes) := by
  have hsub : (c.recorded base writes).Sublist writes := by
    rw [recorded]
    cases c.root with
    | none => exact filter_sublist
    | some root => exact .refl _
  exact ⟨hwrs.increasing.sublist hsub, fun p hp => hwrs.lt p (hsub.mem hp)⟩

theorem lookup_recorded_eq_none [BEq T] (c : UpdateChain T) (base : ℕ → Cell T)
    (hwrs : RowsOf writes) {p : ℕ × Cell T} (hp : p ∈ writes) : lookup p.1 (c.recorded base writes) = none ↔
      c.root = none ∧ unchanged (base p.1) p.2 = true := by
  have hlook : ∀ {l : List (ℕ × Cell T)}, Increasing l → l.Sublist writes → (lookup p.1 l = none ↔ p ∉ l) := by
    intro l hl hsub
    refine ⟨fun hno hmem => ?_, fun hmem => by_contra fun hne => ?_⟩
    · rw [hl.lookup_eq_some_iff.2 hmem] at hno
      exact nomatch hno
    · obtain ⟨q, hq, hqp⟩ := mem_map.1 (hl.lookup_ne_none_iff.1 hne)
      have hval := hwrs.increasing.lookup_eq_some_iff.2 (hsub.mem hq)
      rw [hqp, hwrs.increasing.lookup_eq_some_iff.2 hp] at hval
      exact hmem ((Prod.ext hqp (some.inj hval).symm : q = p) ▸ hq)
  rw [recorded]
  cases c.root with
  | none =>
    rw [getEffectiveUpdates, hlook (hwrs.increasing.sublist filter_sublist) filter_sublist,
      mem_filter, and_iff_right hp, Bool.not_eq_true', Bool.not_eq_false, and_iff_right rfl]
  | some root =>
    refine ⟨fun hno => ?_, fun h => nomatch h.1⟩
    rw [hwrs.increasing.lookup_eq_some_iff.2 hp] at hno
    exact nomatch hno

/-- An update either conflicts with a version that the transaction does not see, or is written. -/
theorem update [BEq T] (h : c.Inv m base history written l) (hm : m.Past history) (ht : t ∈ m.active)
    (hcommit : ∀ d, m.committing ≠ some (t, d)) (hwrs : RowsOf writes) :
    ((∃ q ∈ l, (c.info q).Conflicts t (writes.map Prod.fst)) ∧
        c.update base t writes = some (.error "Conflict on update!")) ∨
      (∀ q ∈ l, ¬(c.info q).Conflicts t (writes.map Prod.fst)) ∧
        ∃ c' node, c.update base t writes = some (.ok (c', node)) ∧
          c'.Inv m base history (Function.update written t.transactionId fun k =>
            (lookup k (c.recorded base writes)).or (written t.transactionId k)) (node.toList ++ l) := by
  cases h with
  | empty hroot hwritten hhistory =>
    refine .inr ⟨fun q hq => absurd hq not_mem_nil, ?_⟩
    have hrs := recorded_rows c base hwrs
    have hrec : c.recorded base writes = getEffectiveUpdates base writes := by rw [recorded, hroot]
    rw [hrec] at hrs ⊢
    rw [UpdateChain.update, hroot]
    cases heff : getEffectiveUpdates base writes with
    | nil =>
      refine ⟨c, none, rfl, .empty hroot (fun u hu k => ?_) hhistory⟩
      by_cases hut : u.transactionId = t.transactionId
      · rw [hut, update_self]
        exact hwritten t ht k
      · rw [update_of_ne hut]
        exact hwritten u hu k
    | cons p rest =>
      rw [heff] at hrs
      obtain ⟨hshape, hversion, hroot', hold⟩ := Shape.createRoot c base t hrs
      refine ⟨_, _, rfl, .chain _ _ hshape ?_⟩
      have hfst : Versions m base history _ [c.allocated + 1] (c.createRoot base t (p :: rest)).version
          (c.createRoot base t (p :: rest)).old fun k => lookup k (p :: rest) :=
        Versions.first hm ht hwritten hhistory hversion hold
      have hcur : (c.createRoot base t (p :: rest)).old c.allocated = fun k => lookup k (p :: rest) := funext hroot'
      rw [hcur]
      exact hfst
  | chain root l hshape hversions =>
    have hids : (writes.map Prod.fst).Pairwise (· < ·) := increasing_iff.1 hwrs.increasing
    have hrs : ∀ p ∈ l, RowsOf (c.info p).tuples := fun p hp => hshape.rows p (mem_cons_of_mem _ hp)
    have hrec : c.recorded base writes = writes := by rw [recorded, hshape.root_eq]
    rw [hrec, UpdateChain.update, hshape.root_eq]
    dsimp only
    rw [hshape.nodes_next, map_some]
    cases hchk : checkForConflicts c.info t (writes.map Prod.fst) l none with
    | error message =>
      obtain ⟨rfl, hconf⟩ := (checkForConflicts_eq_error hids l hrs).1 hchk
      exact .inl ⟨hconf, rfl⟩
    | ok r =>
      obtain ⟨hconf, ⟨p, hp, rfl, hversion⟩ | ⟨rfl, hno⟩⟩ := checkForConflicts_eq_ok hids l hrs hchk
      · exact .inr ⟨hconf, _, _, rfl, mergeUpdate hshape hversions hm ht hcommit hp hversion hwrs hconf⟩
      · -- the transaction gets a node first
        obtain ⟨hshp', hnew, hinf⟩ := hshape.createNode t
        have hinf' : ∀ q ∈ l, (c.createNode t root).info q = c.info q := fun q hq =>
          hinf q (mem_cons_of_mem _ hq)
        have hcongr : Versions m base history written l (c.createNode t root).version (c.createNode t root).old
            (c.old root) := by
          refine hversions.congr (fun q hq => congrArg _ (hinf' q hq)) fun q hq => ?_
          funext k
          rw [old, hinf' q hq]
          rfl
        have hroot : (c.createNode t root).old root = c.old root := by
          funext k
          rw [old, hinf root mem_cons_self]
          rfl
        have hnewest := hcongr.cons (p := c.allocated) hm ht (fun q hq hown => ?_) (congrArg _ hnew)
          fun k => by
            rw [old, hnew]
            rfl
        · rw [← hroot] at hnewest
          refine .inr ⟨hconf, _, _, rfl, mergeUpdate hshp' hnewest hm ht hcommit mem_cons_self
            (congrArg _ hnew) hwrs fun q hq => ?_⟩
          rcases mem_cons.1 hq with rfl | hq
          · exact fun hconf => hconf.1 (congrArg _ hnew)
          · rw [hinf' q hq]
            exact hconf q hq
        · refine hno q hq ?_
          rw [UpdateChain.version, hinf' q hq] at hown
          exact hown.resolve_right (hcommit _)

end Inv

end UpdateChain

/-! ## The invariant -/

namespace TransactionManager.Past

variable {κ ι α : Type*} {m m' : TransactionManager} {history : List (Commit κ α)} {t : TransactionData}

theorem restrict (h : m.Past history) (f : ι → κ) : m.Past (history.map (Commit.restrict f)) where
  valid := h.valid
  descending := pairwise_map.2 h.descending
  committed c hc := by
    obtain ⟨d, hd, rfl⟩ := mem_map.1 hc
    exact h.committed d hd
  before t id hcommit c hc := by
    obtain ⟨d, hd, rfl⟩ := mem_map.1 hc
    exact h.before t id hcommit d hd
  startTime_lt := h.startTime_lt

theorem start (h : m.Past history) (hfree : m.committing = none) (hst : m.startTransaction = some (t, m')) :
    m'.Past history := by
  have hcomg : m'.committing = none := by
    obtain ⟨-, -, rfl⟩ := startTransaction_eq hst
    exact hfree
  exact
    { valid := h.valid.start hst
      descending := h.descending
      committed := fun c hc => (h.committed c hc).start hst
      before := fun u id hu => nomatch hcomg.symm.trans hu
      startTime_lt := fun u id hu => nomatch hcomg.symm.trans hu }

theorem startCommit (h : m.Past history) (hcommit : m.MayCommit t) : (m.startCommit t).Past history where
  valid := h.valid.startCommit hcommit
  descending := h.descending
  committed c hc := (h.committed c hc).startCommit
  before u id hu c hc := by
    obtain ⟨rfl, rfl⟩ := Prod.mk.inj (some.inj hu)
    exact (h.committed c hc).lt
  startTime_lt u id hu w hw := by
    obtain ⟨rfl, rfl⟩ := Prod.mk.inj (some.inj hu)
    exact (h.valid.startTime_lt w hw).2

theorem abortCommit (h : m.Past history) : m.abortCommit.Past history where
  valid := h.valid.abortCommit
  descending := h.descending
  committed c hc := ⟨(h.committed c hc).lt, (h.committed c hc).ne⟩
  before _ _ hu := nomatch hu
  startTime_lt _ _ hu := nomatch hu

theorem remove (h : m.Past history) (hcommit : ∀ c, m.committing ≠ some (t, c)) :
    (m.removeTransaction t).Past history := by
  have hcomg : (m.removeTransaction t).committing = m.committing := by
    refine if_neg fun heq => ?_
    obtain ⟨⟨u, c⟩, hu, rfl⟩ := map_eq_some_iff.1 heq
    exact hcommit c hu
  exact
    { valid := h.valid.remove
      descending := h.descending
      committed := fun c hc => (h.committed c hc).remove
      before := fun u id hu => h.before u id (hcomg ▸ hu)
      startTime_lt := fun u id hu w hw => h.startTime_lt u id (hcomg ▸ hu) w (mem_of_mem_erase hw) }

theorem commit {c : Commit κ α} (h : m.Past history) (hcommit : m.committing = some (t, c.id)) :
    (m.removeTransaction t).Past (c :: history) := by
  have hno : (m.removeTransaction t).committing = none := if_pos (by rw [hcommit, map_some])
  exact
    { valid := h.valid.remove
      descending := pairwise_cons.2 ⟨fun d hd => h.before t c.id hcommit d hd, h.descending⟩
      committed := fun d hd => by
        rcases mem_cons.1 hd with rfl | hd
        · exact (h.valid.committing t _ hcommit).2.remove
        · exact (h.committed d hd).remove
      before := fun u id hu => nomatch hno.symm.trans hu
      startTime_lt := fun u id hu => nomatch hno.symm.trans hu }

end TransactionManager.Past

namespace UpdateState

/-- What has been committed of a vector. -/
def historyOf (s : UpdateState T) (v : ℕ) : List (Commit ℕ (Cell T)) :=
  s.history.map (Commit.restrict fun k => (v, k))

/-- What the transactions have written of a vector. -/
def writtenOf (s : UpdateState T) (v : ℕ) (id k : ℕ) : Option (Cell T) := s.written id (v, k)

/-- The nodes of each vector are the versions of its rows, and are in undo buffers. Commits of the same row did not
    overlap. -/
structure Inv (base : ℕ → ℕ → Cell T) (s : UpdateState T) : Prop where
  past : s.transactions.Past s.history
  vectors : ∀ v, ∃ l, (s.segment.chains v).Inv s.transactions (base v) (s.historyOf v) (s.writtenOf v) l ∧
    ∀ p, (v, p) ∈ s.undo ↔ p ∈ l
  exclusive : Exclusive s.history

variable {base : ℕ → ℕ → Cell T} {s s' : UpdateState T}

theorem Init.inv (h : s.Init) : s.Inv base where
  past := by
    rw [h.transactions, h.history]
    exact
      { valid := TransactionManager.new_valid
        descending := .nil
        committed := fun c hc => absurd hc not_mem_nil
        before := fun t id ht => nomatch ht
        startTime_lt := fun t id ht => nomatch ht }
  vectors v := by
    refine ⟨[], .empty (h.root v) (fun t ht => ?_) (fun d hd => ?_), fun p => ?_⟩
    · rw [h.transactions] at ht
      exact absurd ht not_mem_nil
    · rw [historyOf, h.history] at hd
      exact absurd hd not_mem_nil
    · rw [h.undo]
      exact ⟨fun hp => absurd hp not_mem_nil, fun hp => absurd hp not_mem_nil⟩
  exclusive := by
    rw [h.history]
    exact .nil

namespace Inv

/-- A step that changes one vector. -/
theorem setChain (h : s.Inv base) {v : ℕ} {c : UpdateChain T} {l : List ℕ} (htransactions : s'.transactions = s.transactions)
    (hhistory : s'.history = s.history) (hseg : s'.segment = s.setChain v c)
    (hundo : ∀ w, w ≠ v → ∀ p, (w, p) ∈ s'.undo ↔ (w, p) ∈ s.undo)
    (hwritten : ∀ w, w ≠ v → ∀ id k, s'.written id (w, k) = s.written id (w, k))
    (hc : c.Inv s.transactions (base v) (s.historyOf v) (s'.writtenOf v) l)
    (hl : ∀ p, (v, p) ∈ s'.undo ↔ p ∈ l) : s'.Inv base where
  past := by
    rw [htransactions, hhistory]
    exact h.past
  vectors w := by
    rw [hseg, htransactions, historyOf, hhistory]
    by_cases hw : w = v
    · subst hw
      refine ⟨l, ?_, hl⟩
      rw [UpdateState.setChain]
      dsimp only
      rw [update_self]
      exact hc
    · obtain ⟨l', hinv, hl'⟩ := h.vectors w
      refine ⟨l', ?_, fun p => (hundo w hw p).trans (hl' p)⟩
      have hwr' : s'.writtenOf w = s.writtenOf w := by
        funext id k
        exact hwritten w hw id k
      rw [UpdateState.setChain, hwr']
      dsimp only
      rw [update_of_ne hw]
      exact hinv
  exclusive := by
    rw [hhistory]
    exact h.exclusive

theorem manager (h : s.Inv base) (hpast : s'.transactions.Past s'.history) (hseg : s'.segment = s.segment)
    (hundo : s'.undo = s.undo) (hexclusive : Exclusive s'.history)
    (hstep : ∀ v l, (s.segment.chains v).Inv s.transactions (base v) (s.historyOf v) (s.writtenOf v) l →
      (∀ p, (v, p) ∈ s.undo ↔ p ∈ l) →
        (s.segment.chains v).Inv s'.transactions (base v) (s'.historyOf v) (s'.writtenOf v) l) : s'.Inv base where
  past := hpast
  vectors v := by
    obtain ⟨l, hinv, hl⟩ := h.vectors v
    rw [hseg, hundo]
    exact ⟨l, hstep v l hinv hl, hl⟩
  exclusive := hexclusive

variable {t : TransactionData}

section

variable (h : s.Inv base)

include h

theorem start {m : TransactionManager}
    (hfree : s.transactions.committing = none) (hst : s.transactions.startTransaction = some (t, m)) :
    Inv base { s with
      transactions := m
      written := update s.written t.transactionId fun _ => none } := by
  refine h.manager (h.past.start hfree hst) rfl rfl h.exclusive fun v l hinv _ => ?_
  have hwritten : (fun id k => update s.written t.transactionId (fun _ => none) id (v, k)) =
      update (s.writtenOf v) t.transactionId fun _ => none := by
    funext id k
    by_cases hid : id = t.transactionId
    · rw [hid, update_self, update_self]
    · rw [update_of_ne hid, update_of_ne hid]
      rfl
  change UpdateChain.Inv _ _ _ (fun id k => update s.written t.transactionId (fun _ => none) id (v, k)) _ _
  rw [hwritten]
  refine hinv.manager (fun hno u hu k => ?_) (fun _ => id) fun cur hversions =>
    hversions.start (h.past.restrict _) hst
  by_cases hut : u.transactionId = t.transactionId
  · rw [hut, update_self]
  · rw [update_of_ne hut]
    obtain ⟨-, rfl, rfl⟩ := TransactionManager.startTransaction_eq hst
    exact hno u ((mem_cons.1 hu).resolve_left fun heq => hut (heq ▸ rfl)) k

theorem startCommit (hcommit : s.transactions.MayCommit t) :
    Inv base { s with transactions := s.transactions.startCommit t } := by
  refine h.manager (h.past.startCommit hcommit) rfl rfl h.exclusive fun v l hinv _ => ?_
  refine hinv.manager id (fun _ => id) fun cur hversions => hversions.congr_manager rfl fun p hp u hu => ?_
  -- the commit id is new
  have hne : (s.segment.chains v).version p ≠ s.transactions.currentStartTimestamp := by
    rcases hversions.version_lt (h.past.restrict _) hp with hlt | ⟨w, hw, hid⟩
    · exact hlt.ne
    · rw [hid]
      exact (hcommit.timestamp.trans_le (h.past.valid.transactionId_mem w hw).1).ne'
  rw [TransactionManager.Owns, TransactionManager.Owns, TransactionManager.startCommit, hcommit.free]
  refine or_congr Iff.rfl ⟨fun heq => ?_, fun heq => by cases heq⟩
  exact absurd (congrArg Prod.snd (some.inj heq)).symm hne

theorem abortCommit {c : ℕ}
    (hcommit : s.transactions.committing = some (t, c)) (hdone : ∀ q ∈ s.undo, s.version q ≠ c) :
    Inv base { s with transactions := s.transactions.abortCommit } := by
  refine h.manager h.past.abortCommit rfl rfl h.exclusive fun v l hinv hl => ?_
  refine hinv.manager id (fun _ => id) fun cur hversions => hversions.congr_manager rfl fun p hp u hu => ?_
  rw [TransactionManager.Owns, TransactionManager.Owns, TransactionManager.abortCommit, hcommit]
  refine or_congr Iff.rfl ⟨(fun heq => by cases heq), fun heq => ?_⟩
  exact absurd (congrArg Prod.snd (some.inj heq)).symm (hdone (v, p) ((hl p).2 hp))

theorem rollback (hcommit : ∀ c, s.transactions.committing ≠ some (t, c))
    (hdone : ∀ q ∈ s.undo, s.version q ≠ t.transactionId) :
    Inv base { s with transactions := s.transactions.removeTransaction t } := by
  refine h.manager (h.past.remove hcommit) rfl rfl h.exclusive fun v l hinv hl => ?_
  refine hinv.manager (fun hno u hu => hno u (mem_of_mem_erase hu)) (fun _ => id) fun cur hversions =>
    hversions.remove (h.past.restrict _) (fun p hp hown => ?_) fun heq => ?_
  · exact hdone (v, p) ((hl p).2 hp) (hown.resolve_right (hcommit _))
  · obtain ⟨⟨u, c⟩, hu, rfl⟩ := map_eq_some_iff.1 heq
    exact hcommit c hu

theorem commit {c : ℕ} (hcommit : s.transactions.committing = some (t, c))
    (hdone : ∀ q ∈ s.undo, s.version q ≠ t.transactionId) :
    Inv base { s with
      transactions := s.transactions.removeTransaction t
      history := ⟨c, t.startTime, s.written t.transactionId⟩ :: s.history } := by
  have hno : ∀ v (l : List ℕ), (∀ p, (v, p) ∈ s.undo ↔ p ∈ l) → ∀ p ∈ l, (s.segment.chains v).version p ≠ t.transactionId :=
    fun v l hl p hp => hdone (v, p) ((hl p).2 hp)
  refine h.manager (h.past.commit hcommit) rfl rfl (pairwise_cons.2 ⟨fun d hd k hk hdk => ?_, h.exclusive⟩)
    fun v l hinv hl => ?_
  · obtain ⟨v, r⟩ := k
    obtain ⟨l, hinv, hl⟩ := h.vectors v
    cases hinv with
    | empty _ hwritten _ =>
      exact absurd (hwritten t (h.past.valid.committing t c hcommit).1 r) hk
    | chain root l hshape hversions =>
      exact hversions.lt_startTime (h.past.restrict _) hcommit (k := r) hk
        (mem_map_of_mem (f := Commit.restrict fun k => (v, k)) hd) hdk
  · refine hinv.manager (fun hno u hu => hno u (mem_of_mem_erase hu)) (fun hwritten hhistory d hd k => ?_)
      fun cur hversions => hversions.commit (h.past.restrict _) hcommit (hno v l hl)
    rcases mem_cons.1 hd with rfl | hd
    · exact hwritten t (h.past.valid.committing t c hcommit).1 k
    · exact hhistory d hd k

end

theorem mem_undo_append {v : ℕ} {l : List ℕ} (hl : ∀ p, (v, p) ∈ s.undo ↔ p ∈ l) (node : Option ℕ) (p : ℕ) :
    (v, p) ∈ (node.map fun p => (v, p)).toList ++ s.undo ↔ p ∈ node.toList ++ l := by
  rw [mem_append, mem_append, hl]
  refine or_congr ?_ Iff.rfl
  cases node with
  | none => exact ⟨fun hp => absurd hp not_mem_nil, fun hp => absurd hp not_mem_nil⟩
  | some q =>
    change (v, p) ∈ [(v, q)] ↔ p ∈ [q]
    rw [mem_singleton, mem_singleton, Prod.mk.injEq, and_iff_right rfl]

section

variable {u : UpdateVector T} {v : ℕ} (h : s.Inv base) (sort : IndexSort) (ht : t ∈ s.transactions.active)
  (hcommit : ∀ c, s.transactions.committing ≠ some (t, c)) (hu : u.InVector s.segment.start v)

include h ht hcommit hu

/-- An update fails because of a conflict, and changes nothing, or it is recorded. -/
theorem update_cases [BEq T] :
    (s.segment.writesOf sort u = none ∧ s.segment.update sort base t u = some ⟨s.segment, none, none⟩) ∨
      ∃ writes l, s.segment.writesOf sort u = some (v, writes) ∧ RowsOf writes ∧ (∀ p, (v, p) ∈ s.undo ↔ p ∈ l) ∧
        ((∃ q ∈ l, ((s.segment.chains v).info q).Conflicts t (writes.map Prod.fst)) ∧
            s.segment.update sort base t u = some ⟨s.segment, some "Conflict on update!", none⟩ ∨
          (∀ q ∈ l, ¬((s.segment.chains v).info q).Conflicts t (writes.map Prod.fst)) ∧
            ∃ c, ∃ node : Option ℕ, (s.segment.chains v).update (base v) t writes = some (.ok (c, node)) ∧
              s.segment.update sort base t u = some ⟨s.setChain v c, none, node.map fun p => (v, p)⟩ ∧
              c.Inv s.transactions (base v) (s.historyOf v) (update (s.writtenOf v) t.transactionId
                fun k => (lookup k ((s.segment.chains v).recorded (base v) writes)).or
                  (s.writtenOf v t.transactionId k)) (node.toList ++ l)) := by
  rw [UpdateSegment.update]
  cases hwrs : s.segment.writesOf sort u with
  | none => exact .inl ⟨rfl, rfl⟩
  | some w =>
    obtain ⟨w, writes⟩ := w
    obtain ⟨rfl, hrs, -⟩ := s.segment.writesOf_spec sort hu hwrs
    obtain ⟨l, hinv, hl⟩ := h.vectors w
    refine .inr ⟨writes, l, rfl, hrs, hl, ?_⟩
    dsimp only
    rcases hinv.update (h.past.restrict _) ht hcommit hrs with
      ⟨hconf, hupd⟩ | ⟨hconf, c, node, hupd, hinv'⟩
    · refine .inl ⟨hconf, ?_⟩
      rw [hupd]
      rfl
    · refine .inr ⟨hconf, c, node, hupd, ?_, hinv'⟩
      rw [hupd]
      rfl

theorem update [BEq T]
    {r : UpdateResult T} (hr : s.segment.update sort base t u = some r) :
    Inv base { s with
      segment := r.segment
      undo := r.created.toList ++ s.undo
      written := match r.error with
        | none => Function.update s.written t.transactionId fun k =>
            (s.segment.recorded sort base u k).or (s.written t.transactionId k)
        | some _ => s.written } := by
  rcases h.update_cases sort ht hcommit hu with ⟨hwrs, hupd⟩ |
    ⟨writes, l, hwrs, hrs, hl, ⟨-, hupd⟩ | ⟨-, c, node, -, hupd, hinv⟩⟩
  · -- nothing is written
    obtain rfl := some.inj (hupd.symm.trans hr)
    have hwritten : (Function.update s.written t.transactionId fun k =>
        (s.segment.recorded sort base u k).or (s.written t.transactionId k)) = s.written := by
      have hrec : ∀ k, s.segment.recorded sort base u k = none := fun k => by
        rw [UpdateSegment.recorded, hwrs]
      simp only [hrec, none_or, update_eq_self]
    rw [hwritten]
    exact h
  · obtain rfl := some.inj (hupd.symm.trans hr)
    exact h
  · obtain rfl := some.inj (hupd.symm.trans hr)
    have hrec : ∀ k : ℕ × ℕ, s.segment.recorded sort base u k =
        if k.1 = v then lookup k.2 ((s.segment.chains v).recorded (base v) writes) else none := fun k => by
      rw [UpdateSegment.recorded, hwrs]
    refine h.setChain (v := v) (c := c) (l := node.toList ++ l) rfl rfl rfl (fun w hw p => ?_) (fun w hw id k => ?_)
      ?_ fun p => ?_
    · rw [mem_append, or_iff_right]
      intro hp
      obtain ⟨q, -, hq⟩ := map_eq_some_iff.1 (mem_toList.1 hp)
      exact hw (congrArg Prod.fst hq).symm
    · dsimp only
      by_cases hid : id = t.transactionId
      · rw [hid, update_self, hrec, if_neg hw, none_or]
      · rw [update_of_ne hid]
    · refine cast (congrArg (fun written => c.Inv s.transactions (base v) (s.historyOf v) written _) ?_) hinv
      funext id k
      rw [writtenOf]
      dsimp only
      by_cases hid : id = t.transactionId
      · rw [hid, update_self, update_self, hrec, if_pos rfl]
        rfl
      · rw [update_of_ne hid, update_of_ne hid]
        rfl
    · exact mem_undo_append hl node p

end

theorem setVersion (h : s.Inv base) {v p id : ℕ} (ht : t ∈ s.transactions.active)
    (hp : (v, p) ∈ s.undo) (hown : s.transactions.Owns t (s.version (v, p)))
    (hid : s.transactions.Owns t id) :
    Inv base { s with segment := s.setChain v ((s.segment.chains v).setVersion p id) } := by
  obtain ⟨l, hinv, hl⟩ := h.vectors v
  exact h.setChain rfl rfl rfl (fun _ _ _ => Iff.rfl) (fun _ _ _ _ => rfl)
    (hinv.setVersion (h.past.restrict _) ht ((hl p).1 hp) hown hid) hl

theorem mem_undo_filter {l : List ℕ} {v p : ℕ} (hnd : l.Nodup) (hl : ∀ q, (v, q) ∈ s.undo ↔ q ∈ l) (q : ℕ) :
    (v, q) ∈ s.undo.filter (· ≠ (v, p)) ↔ q ∈ l.erase p := by
  rw [mem_filter, hl, hnd.mem_erase_iff, decide_eq_true_iff, Ne, Prod.mk.injEq, and_comm]
  exact and_congr_left fun _ => not_congr (and_iff_right rfl)

theorem mem_undo_filter_of_ne {v w p : ℕ} (hw : w ≠ v) (q : ℕ) :
    (w, q) ∈ s.undo.filter (· ≠ (v, p)) ↔ (w, q) ∈ s.undo := by
  rw [mem_filter, and_iff_left]
  exact decide_eq_true fun heq => hw (congrArg Prod.fst heq)

theorem rollbackUpdate (h : s.Inv base) {v p : ℕ} (ht : t ∈ s.transactions.active)
    (hp : (v, p) ∈ s.undo) (hown : s.transactions.Owns t (s.version (v, p))) :
    Inv base { s with
      segment := s.setChain v ((s.segment.chains v).rollbackUpdate p)
      undo := s.undo.filter (· ≠ (v, p))
      written := Function.update s.written t.transactionId fun k =>
        if k.1 = v then none else s.written t.transactionId k } := by
  obtain ⟨l, hinv, hl⟩ := h.vectors v
  refine h.setChain (v := v) (l := l.erase p) rfl rfl rfl (fun w hw q => mem_undo_filter_of_ne hw q)
    (fun w hw id k => ?_) ?_ (mem_undo_filter hinv.nodup hl)
  · dsimp only
    by_cases hid : id = t.transactionId
    · rw [hid, update_self, if_neg hw]
    · rw [update_of_ne hid]
  · have hrolled := hinv.rollbackUpdate (h.past.restrict _) ht ((hl p).1 hp) hown
    refine cast (congrArg (fun written => UpdateChain.Inv s.transactions (base v) (s.historyOf v) written _ _) ?_)
      hrolled
    funext id k
    rw [writtenOf]
    dsimp only
    by_cases hid : id = t.transactionId
    · rw [hid, update_self, update_self, if_pos rfl]
    · rw [update_of_ne hid, update_of_ne hid]
      rfl

theorem cleanupUpdate (h : s.Inv base) {v p : ℕ} (hp : (v, p) ∈ s.undo)
    (hversion : s.transactions.Settled (s.version (v, p))) :
    Inv base { s with
      segment := s.setChain v ((s.segment.chains v).cleanupUpdate p)
      undo := s.undo.filter (· ≠ (v, p)) } := by
  obtain ⟨l, hinv, hl⟩ := h.vectors v
  exact h.setChain rfl rfl rfl (fun w hw q => mem_undo_filter_of_ne hw q) (fun _ _ _ _ => rfl)
    (hinv.cleanupUpdate (h.past.restrict _) ((hl p).1 hp) hversion) (mem_undo_filter hinv.nodup hl)

theorem next [BEq T] {sort : IndexSort} (h : s.Inv base) (hnx : Next sort base s s') : s'.Inv base := by
  cases hnx with
  | start t m hfree hst => exact h.start hfree hst
  | update t u v r ht hcommit hu hr => exact h.update sort ht hcommit hu hr
  | startCommit t hcommit => exact h.startCommit hcommit
  | commitUpdate t c v p hcommit hp hversion =>
    exact h.setVersion (h.past.valid.committing t c hcommit).1 hp (.inl hversion) (.inr hcommit)
  | commit t c hcommit hdone => exact h.commit hcommit hdone
  | revertUpdate t c v p hcommit hp hversion =>
    exact h.setVersion (h.past.valid.committing t c hcommit).1 hp (.inr (hversion ▸ hcommit)) (.inl rfl)
  | abortCommit t c hcommit hdone => exact h.abortCommit hcommit hdone
  | rollbackUpdate t v p ht hp hversion => exact h.rollbackUpdate ht hp (.inl hversion)
  | rollback t ht hcommit hdone => exact h.rollback hcommit hdone
  | cleanupUpdate v p hp hversion => exact h.cleanupUpdate hp hversion

end Inv

theorem inv_of_reachable [BEq T] {sort : IndexSort} (h : Reachable Init (Next sort base) s) : s.Inv base :=
  h.invariant (fun _ hinit => hinit.inv) fun _ _ _ hinv hnx => hinv.next hnx

end UpdateState

end WfOpt

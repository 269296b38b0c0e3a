import WfOpt.Storage.UpdateRuns

/-!
# Updates without those of a transaction

The nodes of other transactions (`UpdateChain.updatesWithout`), and the values of rows, of which the node of the
transaction has those from before (`UpdateChain.valueWithout`). An update of the transaction does not change this
(`UpdateChain.Inv.update_without`), and it is what is left when its node is rolled back
(`UpdateChain.Inv.rollbackUpdate_without`).
-/

namespace WfOpt

open List Option Function

variable {T : Type*}

namespace UpdateChain

/-- The nodes behind the root, with what is in them. -/
def updates (c : UpdateChain T) : List (ℕ × UpdateInfo T) := match c.root with
  | none => []
  | some root => ((c.nodes (c.links.next root)).getD []).map fun p => (p, c.info p)

/-- The nodes of others than a transaction -/
def updatesWithout (c : UpdateChain T) (id : ℕ) : List (ℕ × UpdateInfo T) :=
  c.updates.filter fun q => q.2.versionNumber ≠ id

/-- The value of a row from before a transaction has written it. -/
def valueWithout (c : UpdateChain T) (id : ℕ) (base : ℕ → Cell T) (k : ℕ) : Cell T :=
  (((c.updates.find? fun q => q.2.versionNumber = id).bind fun q => lookup k q.2.tuples).or (c.newest k)).getD
    (base k)

variable {m : TransactionManager} {base : ℕ → Cell T} {history : List (Commit ℕ (Cell T))}
  {written : ℕ → ℕ → Option (Cell T)} {c c' : UpdateChain T} {l : List ℕ} {t : TransactionData} {p root id : ℕ}

theorem Shape.updates_eq (h : c.Shape root l) : c.updates = l.map fun p => (p, c.info p) := by
  rw [updates, h.root_eq]
  dsimp only
  rw [h.nodes_next]
  rfl

theorem Shape.newest_eq (h : c.Shape root l) : c.newest = c.old root := by
  funext k
  rw [newest, h.root_eq]
  rfl

/-- The node of a transaction, if there is only one. -/
theorem Shape.find_eq_some (h : c.Shape root l) (hp : p ∈ l) (hid : c.version p = id)
    (huniq : ∀ q ∈ l, c.version q = id → q = p) :
    (c.updates.find? fun q => q.2.versionNumber = id) = some (p, c.info p) := by
  rw [h.updates_eq]
  cases hfind : (l.map fun p => (p, c.info p)).find? fun q => q.2.versionNumber = id with
  | none =>
    have hno := find?_eq_none.1 hfind (p, c.info p) (mem_map_of_mem hp)
    exact absurd (decide_eq_true hid) hno
  | some q =>
    obtain ⟨r, hr, rfl⟩ := mem_map.1 (mem_of_find?_eq_some hfind)
    have hver := find?_some hfind
    rw [huniq r hr (of_decide_eq_true hver)]

theorem Shape.find_eq_none (h : c.Shape root l) (hno : ∀ q ∈ l, c.version q ≠ id) :
    (c.updates.find? fun q => q.2.versionNumber = id) = none := by
  rw [h.updates_eq, find?_eq_none]
  intro q hq
  obtain ⟨r, hr, rfl⟩ := mem_map.1 hq
  rw [decide_eq_true_iff]
  exact hno r hr

/-- Nodes of others are the same. -/
theorem Shape.updatesWithout_eq {root' : ℕ} (h : c.Shape root l) (h' : c'.Shape root' l) (hid : c.version p = id)
    (hid' : c'.version p = id) (hinf : ∀ q ∈ l, q ≠ p → c'.info q = c.info q) :
    c'.updatesWithout id = c.updatesWithout id := by
  rw [updatesWithout, updatesWithout, h.updates_eq, h'.updates_eq]
  have hlist : ∀ l' : List ℕ, (∀ q ∈ l', q ∈ l) →
      (l'.map fun p => (p, c'.info p)).filter (fun q => q.2.versionNumber ≠ id) =
        (l'.map fun p => (p, c.info p)).filter fun q => q.2.versionNumber ≠ id := by
    intro l'
    induction l' with
    | nil => exact fun _ => rfl
    | cons q l' ih =>
      intro hsub
      have ih := ih fun r hr => hsub r (mem_cons_of_mem _ hr)
      rw [map_cons, map_cons]
      by_cases hq : q = p
      · subst hq
        have hneg : ∀ info : UpdateInfo T, info.versionNumber = id →
            ¬decide ((q, info).2.versionNumber ≠ id) = true := fun _ hn h => of_decide_eq_true h hn
        rw [filter_cons, filter_cons, if_neg (hneg _ hid'), if_neg (hneg _ hid), ih]
      · rw [hinf q (hsub q mem_cons_self) hq, filter_cons, filter_cons, ih]
  exact hlist l fun _ hq => hq

namespace Inv

/-- What is merged into the node of the transaction was there before, and the rest has not changed. -/
theorem mergeUpdate_without (base : ℕ → Cell T) (hshp : c.Shape root l) (hp : p ∈ l) (hid : c.version p = id)
    (huniq : ∀ q ∈ l, c.version q = id → q = p) {writes : List (ℕ × Cell T)} (hwrs : RowsOf writes) :
    (c.mergeUpdate base root p writes).updatesWithout id = c.updatesWithout id ∧
      ∀ k, (c.mergeUpdate base root p writes).valueWithout id base k = c.valueWithout id base k := by
  obtain ⟨hshp', hver, hinf, hold, hroot⟩ := hshp.mergeUpdate hp base hwrs
  have hid' : (c.mergeUpdate base root p writes).version p = id := (hver p).trans hid
  refine ⟨hshp.updatesWithout_eq hshp' hid hid' fun q hq hqp => hinf q (hshp.ne_root hq) hqp, fun k => ?_⟩
  have hfind := hshp'.find_eq_some hp hid' fun q hq hq' => huniq q hq ((hver q).symm.trans hq')
  rw [valueWithout, valueWithout, hfind, hshp.find_eq_some hp hid huniq, hshp.newest_eq, hshp'.newest_eq, hroot]
  change (((c.mergeUpdate base root p writes).old p k).or _).getD _ = ((c.old p k).or _).getD _
  rw [hold]
  cases c.old p k with
  | some x => rfl
  | none =>
    cases lookup k writes with
    | some x => rfl
    | none => rfl

/-- A node that is new has nothing. -/
theorem createNode_without (base : ℕ → Cell T) (hshp : c.Shape root l) (hno : ∀ q ∈ l, c.version q ≠ t.transactionId) :
    (c.createNode t root).updatesWithout t.transactionId = c.updatesWithout t.transactionId ∧
      ∀ k, (c.createNode t root).valueWithout t.transactionId base k = c.valueWithout t.transactionId base k := by
  obtain ⟨hshp', hnew, hinf⟩ := hshp.createNode t
  have hupds : (c.createNode t root).updates = (c.allocated, ⟨t.transactionId, []⟩) :: c.updates := by
    rw [hshp'.updates_eq, hshp.updates_eq, map_cons, hnew]
    refine congrArg _ (map_congr_left fun q hq => ?_)
    rw [hinf q (mem_cons_of_mem _ hq)]
  constructor
  · rw [updatesWithout, hupds]
    exact filter_cons_of_neg fun h => of_decide_eq_true h rfl
  · intro k
    have hfind : ((c.createNode t root).updates.find? fun q => q.2.versionNumber = t.transactionId) =
        some (c.allocated, ⟨t.transactionId, []⟩) := by
      rw [hupds]
      exact find?_cons_of_pos (decide_eq_true rfl)
    have hroot : (c.createNode t root).old root k = c.old root k := by
      rw [old, hinf root mem_cons_self]
      rfl
    rw [valueWithout, valueWithout, hfind, hshp.find_eq_none hno, hshp.newest_eq, hshp'.newest_eq, hroot]
    rfl

theorem update_without [BEq T] (h : c.Inv m base history written l) (ht : t ∈ m.active) {writes : List (ℕ × Cell T)} (hwrs : RowsOf writes)
    {node : Option ℕ} (hupd : c.update base t writes = some (.ok (c', node))) :
    c'.updatesWithout t.transactionId = c.updatesWithout t.transactionId ∧
      ∀ k, c'.valueWithout t.transactionId base k = c.valueWithout t.transactionId base k := by
  cases h with
  | empty hroot hwr hhist =>
    have hrs := recorded_rows c base hwrs
    have hrec : c.recorded base writes = getEffectiveUpdates base writes := by rw [recorded, hroot]
    rw [hrec] at hrs
    rw [UpdateChain.update, hroot] at hupd
    cases heff : getEffectiveUpdates base writes with
    | nil =>
      rw [heff] at hupd
      obtain ⟨rfl, -⟩ := Prod.mk.inj (Except.ok.inj (some.inj hupd))
      exact ⟨rfl, fun _ => rfl⟩
    | cons p rest =>
      rw [heff] at hrs hupd
      obtain ⟨rfl, -⟩ := Prod.mk.inj (Except.ok.inj (some.inj hupd))
      obtain ⟨hshp, hver, hroot', hold⟩ := Shape.createRoot c base t hrs
      have hemp : c.updates = [] := by rw [updates, hroot]
      have huniq : ∀ q ∈ [c.allocated + 1], (c.createRoot base t (p :: rest)).version q = t.transactionId →
          q = c.allocated + 1 := fun q hq _ => mem_singleton.1 hq
      constructor
      · rw [updatesWithout, updatesWithout, hshp.updates_eq, hemp]
        exact filter_cons_of_neg fun h => of_decide_eq_true h hver
      · intro k
        rw [valueWithout, valueWithout, hshp.find_eq_some mem_cons_self hver huniq, hemp, hshp.newest_eq, hroot']
        change (((c.createRoot base t (p :: rest)).old (c.allocated + 1) k).or _).getD _ = _
        rw [hold, newest, hroot]
        cases lookup k (p :: rest) with
        | some x => rfl
        | none => rfl
  | chain root l hshp hvers =>
    have hids : (writes.map Prod.fst).Pairwise (· < ·) := increasing_iff.1 hwrs.increasing
    have hrs : ∀ p ∈ l, RowsOf (c.info p).tuples := fun p hp => hshp.rows p (mem_cons_of_mem _ hp)
    rw [UpdateChain.update, hshp.root_eq] at hupd
    dsimp only at hupd
    rw [hshp.nodes_next, map_some] at hupd
    cases hchk : checkForConflicts c.info t (writes.map Prod.fst) l none with
    | error message =>
      rw [hchk] at hupd
      cases some.inj hupd
    | ok r =>
      obtain ⟨-, ⟨p, hp, rfl, hver⟩ | ⟨rfl, hno⟩⟩ := checkForConflicts_eq_ok hids l hrs hchk
      · rw [hchk] at hupd
        obtain ⟨rfl, -⟩ := Prod.mk.inj (Except.ok.inj (some.inj hupd))
        exact mergeUpdate_without base hshp hp hver
          (fun q hq hq' => hvers.unique t ht q hq p hp (.inl hq') (.inl hver)) hwrs
      · rw [hchk] at hupd
        obtain ⟨rfl, -⟩ := Prod.mk.inj (Except.ok.inj (some.inj hupd))
        obtain ⟨hshp', hnew, hinf⟩ := hshp.createNode t
        obtain ⟨hupds, hval⟩ := createNode_without base hshp hno
        have hver : (c.createNode t root).version c.allocated = t.transactionId := congrArg _ hnew
        have huniq : ∀ q ∈ c.allocated :: l, (c.createNode t root).version q = t.transactionId →
            q = c.allocated := by
          intro q hq hq'
          refine (mem_cons.1 hq).resolve_right fun hq => ?_
          rw [UpdateChain.version, hinf q (mem_cons_of_mem _ hq)] at hq'
          exact hno q hq hq'
        obtain ⟨hupds', hval'⟩ := mergeUpdate_without base hshp' mem_cons_self hver huniq hwrs
        exact ⟨hupds'.trans hupds, fun k => (hval' k).trans (hval k)⟩

/-- When the node of a transaction is rolled back, the rest is left. -/
theorem rollbackUpdate_without (h : c.Inv m base history written l) (ht : t ∈ m.active) (hp : p ∈ l)
    (hver : c.version p = t.transactionId) :
    (c.rollbackUpdate p).updates = c.updatesWithout t.transactionId ∧
      ∀ k, ((c.rollbackUpdate p).newest k).getD (base k) = c.valueWithout t.transactionId base k := by
  cases h with
  | empty => exact absurd hp not_mem_nil
  | chain root l hshp hvers =>
    obtain ⟨hshp', -, hinf, hroot⟩ := hshp.rollbackUpdate hp (hvers.cur_of_old p hp)
    have huniq : ∀ q ∈ l, c.version q = t.transactionId → q = p := fun q hq hq' =>
      hvers.unique t ht q hq p hp (.inl hq') (.inl hver)
    constructor
    · rw [updatesWithout, hshp'.updates_eq, hshp.updates_eq, hshp.nodup_tail.erase_eq_filter, List.filter_map]
      have hmap : ∀ q ∈ l.filter (fun q => q != p), ((q, (c.rollbackUpdate p).info q) : ℕ × UpdateInfo T) =
          (q, c.info q) := fun q hq => by
        rw [hinf q (hshp.ne_root (mem_filter.1 hq).1)]
      rw [map_congr_left hmap]
      refine congrArg _ (filter_congr fun q hq => ?_)
      change (q != p) = decide (c.version q ≠ t.transactionId)
      by_cases hqp : q = p
      · rw [hqp, bne_self_eq_false, decide_eq_false (not_not.2 hver)]
      · have hne : c.version q ≠ t.transactionId := fun hq' => hqp (huniq q hq hq')
        rw [bne_iff_ne.2 hqp, decide_eq_true hne]
    · intro k
      rw [valueWithout, hshp.find_eq_some hp hver huniq, hshp.newest_eq, hshp'.newest_eq, hroot]
      rfl

end Inv

end UpdateChain

namespace UpdateChain.Inv

variable {m : TransactionManager} {base : ℕ → Cell T} {history : List (Commit ℕ (Cell T))}
  {written : ℕ → ℕ → Option (Cell T)} {c : UpdateChain T} {l : List ℕ}
  (h : c.Inv m base history written l)

include h

theorem updates_eq : c.updates = l.map fun p => (p, c.info p) := by
  cases h with
  | empty hroot => rw [updates, hroot]; rfl
  | chain root l hshp => exact hshp.updates_eq

theorem mem_updatesWithout (id : ℕ) {p : ℕ} (hp : p ∈ l) :
    p ∈ (c.updatesWithout id).map Prod.fst ↔ c.version p ≠ id := by
  rw [updatesWithout, h.updates_eq, List.mem_map]
  constructor
  · rintro ⟨q, hq, rfl⟩
    obtain ⟨hq, hver⟩ := mem_filter.1 hq
    obtain ⟨r, -, rfl⟩ := List.mem_map.1 hq
    exact of_decide_eq_true hver
  · intro hver
    exact ⟨_, mem_filter.2 ⟨List.mem_map_of_mem hp, decide_eq_true hver⟩, rfl⟩

/-- Without a node of the transaction, all nodes are those of others. -/
theorem without_eq {id : ℕ} (hno : ∀ p ∈ l, c.version p ≠ id) :
    c.updatesWithout id = c.updates ∧ ∀ k, c.valueWithout id base k = (c.newest k).getD (base k) := by
  have hfind : (c.updates.find? fun q => q.2.versionNumber = id) = none := by
    rw [h.updates_eq, find?_eq_none]
    intro q hq
    obtain ⟨p, hp, rfl⟩ := mem_map.1 hq
    rw [decide_eq_true_iff]
    exact hno p hp
  constructor
  · rw [updatesWithout, filter_eq_self]
    exact fun q hq => decide_eq_true fun heq => find?_eq_none.1 hfind q hq (decide_eq_true heq)
  · intro k
    rw [valueWithout, hfind]
    rfl

theorem mem_of_mem_updatesWithout {id p : ℕ} (hp : p ∈ (c.updatesWithout id).map Prod.fst) : p ∈ l := by
  rw [updatesWithout, h.updates_eq] at hp
  obtain ⟨q, hq, rfl⟩ := mem_map.1 hp
  obtain ⟨r, hr, rfl⟩ := mem_map.1 (mem_filter.1 hq).1
  exact hr

end UpdateChain.Inv

namespace UpdateState

variable [BEq T] {base : ℕ → ℕ → Cell T} {s : UpdateState T}

/-- What an update creates belongs to the transaction, and all else is as before. -/
theorem Inv.update_without (h : s.Inv base) (sort : IndexSort) {t : TransactionData} {u : UpdateVector T} {v : ℕ}
    {r : UpdateResult T} (ht : t ∈ s.transactions.active) (hcom : ∀ c, s.transactions.committing ≠ some (t, c))
    (hu : u.InVector s.segment.start v) (hr : s.segment.update sort base t u = some r) :
    (∀ q ∈ r.created.toList, q ∉ s.undo) ∧
      (∀ q, (q ∈ r.created.toList ++ s.undo ∧ (r.segment.chains q.1).version q.2 = t.transactionId) ↔
        q ∈ r.created.toList ∨ (q ∈ s.undo ∧ s.version q = t.transactionId)) ∧
      ∀ w, (r.segment.chains w).updatesWithout t.transactionId =
          (s.segment.chains w).updatesWithout t.transactionId ∧
        ∀ k, (r.segment.chains w).valueWithout t.transactionId (base w) k =
          (s.segment.chains w).valueWithout t.transactionId (base w) k := by
  rcases h.update_cases sort ht hcom hu with ⟨-, hupd⟩ |
    ⟨writes, l, -, hrs, hl, ⟨-, hupd⟩ | ⟨-, c, node, hchn, hupd, hc⟩⟩
  iterate 2
    · obtain rfl := some.inj (hupd.symm.trans hr)
      exact ⟨fun q hq => absurd hq not_mem_nil, fun q => ⟨.inr, fun hq => hq.resolve_left not_mem_nil⟩,
        fun w => ⟨rfl, fun _ => rfl⟩⟩
  · obtain rfl := some.inj (hupd.symm.trans hr)
    obtain ⟨l', hinv, hl'⟩ := h.vectors v
    obtain ⟨hupds, hval⟩ := hinv.update_without ht hrs hchn
    have hnd := hc.nodup
    rw [nodup_append] at hnd
    have hcre : ∀ q, q ∈ ((node.map fun p => (v, p)).toList : List (ℕ × ℕ)) ↔ q.1 = v ∧ q.2 ∈ node.toList := by
      intro q
      cases node with
      | none => exact ⟨fun hq => absurd hq not_mem_nil, fun hq => absurd hq.2 not_mem_nil⟩
      | some p =>
        change q ∈ [(v, p)] ↔ _ ∧ q.2 ∈ [p]
        rw [mem_singleton, mem_singleton, Prod.ext_iff]
    have hsm : ∀ w, w ≠ v → (s.setChain v c).chains w = s.segment.chains w := fun w hw =>
      update_of_ne hw _ _
    have hself : (s.setChain v c).chains v = c := update_self ..
    refine ⟨fun q hq hmem => ?_, fun q => ?_, fun w => ?_⟩
    · obtain ⟨rfl, hnode⟩ := (hcre q).1 hq
      exact hnd.2.2 q.2 hnode q.2 ((hl q.2).1 hmem) rfl
    · by_cases hq : q.1 = v
      · obtain ⟨w, p⟩ := q
        obtain rfl : w = v := hq
        -- a node of the transaction is one that is not left without the transaction
        have hiff : ∀ p ∈ l, c.version p = t.transactionId ↔ s.version (w, p) = t.transactionId := fun p hp => by
          have h₁ := hc.mem_updatesWithout t.transactionId (mem_append_right _ hp)
          have h₂ := hinv.mem_updatesWithout t.transactionId ((hl' p).1 ((hl p).2 hp))
          rw [hupds] at h₁
          exact not_iff_not.1 (h₁.symm.trans h₂)
        have hnew : p ∈ node.toList → c.version p = t.transactionId := fun hp => by
          by_contra hne
          have hmem := (hc.mem_updatesWithout t.transactionId (mem_append_left _ hp)).2 hne
          rw [hupds] at hmem
          exact hnd.2.2 p hp p ((hl p).1 ((hl' p).2 (hinv.mem_of_mem_updatesWithout hmem))) rfl
        rw [hself, mem_append, hcre, hl]
        rw [and_iff_right rfl]
        constructor
        · rintro ⟨hp | hp, hver⟩
          · exact .inl hp
          · exact .inr ⟨hp, (hiff p hp).1 hver⟩
        · rintro (hp | ⟨hp, hver⟩)
          · exact ⟨.inl hp, hnew hp⟩
          · exact ⟨.inr hp, (hiff p hp).2 hver⟩
      · have hnot : q ∉ (node.map fun p => (v, p)).toList := fun hmem => hq ((hcre q).1 hmem).1
        rw [mem_append, or_iff_right hnot, or_iff_right hnot]
        rw [hsm q.1 hq]
        rfl
    · by_cases hw : w = v
      · subst hw
        rw [hself]
        exact ⟨hupds, hval⟩
      · rw [hsm w hw]
        exact ⟨rfl, fun _ => rfl⟩

end UpdateState

end WfOpt

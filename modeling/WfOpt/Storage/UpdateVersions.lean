import WfOpt.Lib.Snapshot
import WfOpt.Transaction.Manager

/-!
# Versions

The history of commits as a list of versions, the newest one first, each of which has an id, of an active
transaction or a commit, and the values that some keys had before.

* The current value of a key is the latest one, or what an active transaction has written (`Versions`).
* Taking back the values of the versions that a transaction does not see gives its snapshot, or its own values
  (`Versions.fold_eq`).

The operations on the versions, and the steps of transactions, preserve this.
-/

namespace WfOpt

open Function Option List

namespace TransactionManager

/-- The version with the id is what the active transaction has written, which may be committing. -/
def Owns (m : TransactionManager) (t : TransactionData) (id : ℕ) : Prop :=
  id = t.transactionId ∨ m.committing = some (t, id)

/-- The commits of the past. No transaction starts while another one is being committed. -/
structure Past {κ α : Type*} (m : TransactionManager) (history : List (Commit κ α)) : Prop where
  valid : m.Valid
  descending : Descending history
  committed : ∀ c ∈ history, m.Committed c.id
  before : ∀ t id, m.committing = some (t, id) → ∀ c ∈ history, c.id < id
  startTime_lt : ∀ t id, m.committing = some (t, id) → ∀ u ∈ m.active, u.startTime < id

variable {m : TransactionManager} {κ α : Type*} {history : List (Commit κ α)} {t u : TransactionData} {id : ℕ}

theorem Past.lt_transactionId (h : m.Past history) {c : Commit κ α} (hc : c ∈ history) (ht : t ∈ m.active) :
    c.id < t.transactionId := (h.committed c hc).lt_transactionId h.valid ht

/-- What a transaction has written is not in the past of any active transaction. -/
theorem Past.startTime_lt_of_owns (h : m.Past history) (ht : t ∈ m.active) (hu : u ∈ m.active)
    (howns : m.Owns t id) : u.startTime < id := by
  rcases howns with rfl | hid
  · exact h.valid.startTime_lt_transactionId hu ht
  · exact h.startTime_lt t id hid u hu

theorem Past.lt_of_owns (h : m.Past history) (ht : t ∈ m.active) (howns : m.Owns t id) {c : Commit κ α}
    (hc : c ∈ history) : c.id < id := by
  rcases howns with rfl | hid
  · exact h.lt_transactionId hc ht
  · exact h.before t id hid c hc

/-- A version belongs to one transaction. -/
theorem Past.owns_inj (h : m.Past history) (ht : t ∈ m.active) (hu : u ∈ m.active) (htid : m.Owns t id)
    (huid : m.Owns u id) : t = u := by
  have hne : ∀ {t u : TransactionData}, u ∈ m.active → m.committing = some (t, id) → id ≠ u.transactionId :=
    fun hu hid => ((h.valid.committing _ _ hid).2.lt_transactionId h.valid hu).ne
  rcases htid with hid | hid
  · rcases huid with hid' | hid'
    · exact h.valid.transactionId_inj t ht u hu (hid.symm.trans hid')
    · exact absurd hid (hne ht hid')
  · rcases huid with hid' | hid'
    · exact absurd hid' (hne hu hid)
    · exact congrArg Prod.fst (some.inj (hid.symm.trans hid'))

/-- The latest value of a key is that of the snapshot of any time in the future. -/
theorem Past.valueAt_latest (h : m.Past history) (base : κ → α) {time : ℕ}
    (htime : ∀ c ∈ history, c.id < time) (k : κ) :
    valueAt base history time k = valueAt base history transactionIdStart k := by
  have hlt : ∀ c ∈ history, c.id < transactionIdStart := fun c hc =>
    (h.committed c hc).lt.trans_le h.valid.timestamp_le
  rcases le_total time transactionIdStart with hle | hle
  · exact valueAt_eq hle fun c hc hge _ => absurd (htime c hc) (not_lt.2 hge)
  · exact (valueAt_eq hle fun c hc hge _ => absurd (hlt c hc) (not_lt.2 hge)).symm

end TransactionManager

variable {κ α : Type*}

/-- The versions of keys: those of the list `l`, with their ids and the values before them, and the current
    values. -/
structure Versions (m : TransactionManager) (base : κ → α) (history : List (Commit κ α))
    (written : ℕ → κ → Option α) (l : List ℕ) (id : ℕ → ℕ) (old : ℕ → κ → Option α) (cur : κ → Option α) :
    Prop where
  version : ∀ p ∈ l, (∃ t ∈ m.active, m.Owns t (id p)) ∨ ∃ c ∈ history, c.id = id p
  unique : ∀ t ∈ m.active, ∀ p ∈ l, ∀ q ∈ l, m.Owns t (id p) → m.Owns t (id q) → p = q
  cur_of_old : ∀ p ∈ l, ∀ k, old p k ≠ none → cur k ≠ none
  old_eq : ∀ p ∈ l, ∀ k x, old p k = some x → x = valueAt base history (id p) k
  written_eq : ∀ t ∈ m.active, ∀ p ∈ l, m.Owns t (id p) → ∀ k, old p k ≠ none → written t.transactionId k = cur k
  owned : ∀ t ∈ m.active, ∀ k, written t.transactionId k ≠ none →
    ∃ p ∈ l, m.Owns t (id p) ∧ old p k ≠ none
  cur_eq : ∀ k x, cur k = some x → (∀ t ∈ m.active, written t.transactionId k = none) →
    x = valueAt base history transactionIdStart k
  unwritten : ∀ k, cur k = none → ∀ c ∈ history, c.writes k = none
  present : ∀ c ∈ history, ∀ k, c.writes k ≠ none → ∀ t ∈ m.active, t.startTime < c.id →
    ∃ p ∈ l, id p = c.id ∧ old p k ≠ none
  order : l.Pairwise fun p q => ∀ k, old p k ≠ none → old q k ≠ none → id q < id p
  newer : l.Pairwise fun p q => ∀ t ∈ m.active, m.Owns t (id q) → t.startTime < id p
  older : ∀ t ∈ m.active, ∀ p ∈ l, m.Owns t (id p) → ∀ q ∈ l, q ≠ p → ∀ k, old p k ≠ none →
    old q k ≠ none → id q < t.startTime

namespace Versions

open TransactionManager

variable {m : TransactionManager} {base : κ → α} {history : List (Commit κ α)}
  {written : ℕ → κ → Option α} {l : List ℕ} {id : ℕ → ℕ} {old : ℕ → κ → Option α} {cur : κ → Option α}
  {t u : TransactionData} {p q : ℕ} {k : κ}

section

variable (h : Versions m base history written l id old cur) (hm : m.Past history)
include h hm

/-- Two transactions have not both written a key. -/
theorem owner_unique (ht : t ∈ m.active) (hu : u ∈ m.active) (hp : p ∈ l) (hq : q ∈ l)
    (htp : m.Owns t (id p)) (huq : m.Owns u (id q)) (hpk : old p k ≠ none) (hqk : old q k ≠ none) : p = q := by
  by_contra hne
  exact absurd (h.older t ht p hp htp q hq (Ne.symm hne) k hpk hqk)
    (hm.startTime_lt_of_owns hu ht huq).not_gt

theorem snapshot_eq (ht : t ∈ m.active) (hcom : ∀ c, m.committing ≠ some (t, c)) :
    (∀ p ∈ l, t.startTime < id p → id p ≠ t.transactionId → old p k = none) →
      (cur k).getD (base k) = (written t.transactionId k).getD (valueAt base history t.startTime k) := by
  intro hno
  cases hwr : written t.transactionId k with
  | some x =>
    obtain ⟨p, hp, howns, hold⟩ := h.owned t ht k (by rw [hwr]; exact some_ne_none x)
    rw [← h.written_eq t ht p hp howns k hold, hwr]
    rfl
  | none =>
    -- nobody else has written the key, and it has not been written since the start
    have hfree : ∀ u ∈ m.active, written u.transactionId k = none := by
      intro u hu
      by_contra hne
      obtain ⟨p, hp, howns, hold⟩ := h.owned u hu k hne
      refine hold (hno p hp (hm.startTime_lt_of_owns hu ht howns) fun hid => ?_)
      obtain rfl := hm.owns_inj hu ht howns (.inl hid)
      exact hne hwr
    have hsince : ∀ c ∈ history, t.startTime ≤ c.id → c.writes k = none := by
      intro c hc hle
      by_contra hne
      have hlt := hle.lt_of_ne fun heq => (hm.committed c hc).ne t ht heq.symm
      obtain ⟨p, hp, hid, hold⟩ := h.present c hc k hne t ht hlt
      exact hold (hno p hp (hid ▸ hlt) (hid ▸ (hm.lt_transactionId hc ht).ne))
    cases hcur : cur k with
    | none => exact (valueAt_eq_base (h.unwritten k hcur) _).symm
    | some x =>
      have hle : t.startTime ≤ transactionIdStart := (hm.valid.startTime_lt t ht).2.le.trans hm.valid.timestamp_le
      rw [getD_some, h.cur_eq k x hcur hfree]
      exact (valueAt_eq hle fun c hc hge _ => hsince c hc hge).symm

end

/-- Values that are taken back one after another: the last one counts. -/
theorem foldl_old_cases (applies : ℕ → Bool) (x : α) (k : κ) (l : List ℕ) :
    ((∀ p ∈ l, applies p = true → old p k = none) ∧ (l.filter applies).foldl (fun x p => (old p k).getD x) x = x) ∨
      ∃ l₁ p l₂ y, l = l₁ ++ p :: l₂ ∧ applies p = true ∧ old p k = some y ∧
        (∀ q ∈ l₂, applies q = true → old q k = none) ∧
          (l.filter applies).foldl (fun x p => (old p k).getD x) x = y := by
  induction l generalizing x with
  | nil => exact .inl ⟨fun _ hp => absurd hp not_mem_nil, rfl⟩
  | cons p l ih =>
    cases happl : applies p with
    | false =>
      rw [filter_cons_of_neg (by rw [happl]; exact Bool.false_ne_true)]
      rcases ih x with ⟨hno, hfold⟩ | ⟨l₁, q, l₂, y, rfl, hq⟩
      · refine .inl ⟨fun q hq hq' => ?_, hfold⟩
        rcases mem_cons.1 hq with rfl | hq
        · exact absurd (happl.symm.trans hq') Bool.false_ne_true
        · exact hno q hq hq'
      · exact .inr ⟨p :: l₁, q, l₂, y, rfl, hq⟩
    | true =>
      rw [filter_cons_of_pos happl, foldl_cons]
      rcases ih ((old p k).getD x) with ⟨hno, hfold⟩ | ⟨l₁, q, l₂, y, rfl, hq⟩
      · cases hold : old p k with
        | none =>
          rw [hold, getD_none] at hfold
          refine .inl ⟨fun q hq hq' => ?_, hfold⟩
          rcases mem_cons.1 hq with rfl | hq
          · exact hold
          · exact hno q hq hq'
        | some y =>
          rw [hold, getD_some] at hfold
          exact .inr ⟨[], p, l, y, rfl, happl, hold, hno, hfold⟩
      · exact .inr ⟨p :: l₁, q, l₂, y, rfl, hq⟩

/-- A transaction that takes back, in order, what it does not see gets its snapshot, or what it has written
    itself. -/
theorem fold_eq (h : Versions m base history written l id old cur) (hm : m.Past history) (ht : t ∈ m.active)
    (hcom : ∀ c, m.committing ≠ some (t, c)) {applies : ℕ → Bool}
    (happl : ∀ p ∈ l, applies p = true ↔ t.startTime < id p ∧ id p ≠ t.transactionId) (k : κ) :
    (l.filter applies).foldl (fun x p => (old p k).getD x) ((cur k).getD (base k)) =
      (written t.transactionId k).getD (valueAt base history t.startTime k) := by
  rcases foldl_old_cases applies ((cur k).getD (base k)) k l with
    ⟨hno, hfold⟩ | ⟨l₁, p, l₂, y, hl, hp, hold, hlst, hfold⟩
  · rw [hfold]
    exact h.snapshot_eq hm ht hcom fun p hp hlt hne => hno p hp ((happl p hp).2 ⟨hlt, hne⟩)
  · have hpl : p ∈ l := hl ▸ mem_append_right _ mem_cons_self
    obtain ⟨hlt, hne⟩ := (happl p hpl).1 hp
    have hpk : old p k ≠ none := by
      rw [hold]
      exact some_ne_none y
    -- the transaction has not written the key
    have hwr : written t.transactionId k = none := by
      by_contra hwr
      obtain ⟨q, hq, howns, hqk⟩ := h.owned t ht k hwr
      have hqid : id q = t.transactionId := howns.resolve_right (hcom _)
      have hpq : p ≠ q := fun heq => hne (heq ▸ hqid)
      exact absurd (h.older t ht q hq howns p hpl hpq k hqk hpk) hlt.not_gt
    rw [hfold, hwr, getD_none, h.old_eq p hpl k y hold]
    refine (valueAt_eq hlt.le fun c hc hge hlt' => ?_).symm
    -- the version of a commit in between would be further back
    by_contra hck
    have hst : t.startTime < c.id := hge.lt_of_ne fun heq => (hm.committed c hc).ne t ht heq.symm
    obtain ⟨q, hq, hqid, hqk⟩ := h.present c hc k hck t ht hst
    have happl' : applies q = true := (happl q hq).2 ⟨hqid ▸ hst, hqid ▸ (hm.lt_transactionId hc ht).ne⟩
    have hord := h.order
    rw [hl, pairwise_append, pairwise_cons] at hord
    rw [hl, mem_append, mem_cons] at hq
    rcases hq with hq | rfl | hq
    · exact absurd (hord.2.2 q hq p mem_cons_self k hqk hpk) (hqid ▸ hlt'.not_gt)
    · exact absurd hlt' (hqid ▸ lt_irrefl _)
    · exact hqk (hlst q hq happl')

/-! ## Steps of transactions -/

/-- Only the owners of versions matter. -/
theorem congr_manager {m' : TransactionManager} (h : Versions m base history written l id old cur)
    (hact : m'.active = m.active)
    (howns : ∀ p ∈ l, ∀ t ∈ m.active, m'.Owns t (id p) ↔ m.Owns t (id p)) :
    Versions m' base history written l id old cur where
  version p hp := by
    rcases h.version p hp with ⟨t, ht, hown⟩ | hc
    · exact .inl ⟨t, hact.symm ▸ ht, (howns p hp t ht).2 hown⟩
    · exact .inr hc
  unique t ht p hp q hq hown hown' := by
    rw [hact] at ht
    exact h.unique t ht p hp q hq ((howns p hp t ht).1 hown) ((howns q hq t ht).1 hown')
  cur_of_old := h.cur_of_old
  old_eq := h.old_eq
  written_eq t ht p hp hown := by
    rw [hact] at ht
    exact h.written_eq t ht p hp ((howns p hp t ht).1 hown)
  owned t ht k hk := by
    rw [hact] at ht
    obtain ⟨p, hp, hown, hold⟩ := h.owned t ht k hk
    exact ⟨p, hp, (howns p hp t ht).2 hown, hold⟩
  cur_eq k x hx hwr := h.cur_eq k x hx (hact ▸ hwr)
  unwritten := h.unwritten
  present c hc k hk t ht := h.present c hc k hk t (hact ▸ ht)
  order := h.order
  newer := h.newer.imp_of_mem fun _ hq hnwr t ht hown => by
    rw [hact] at ht
    exact hnwr t ht ((howns _ hq t ht).1 hown)
  older t ht p hp hown := by
    rw [hact] at ht
    exact h.older t ht p hp ((howns p hp t ht).1 hown)

section

variable (h : Versions m base history written l id old cur) (hm : m.Past history)

include h hm

/-- The ids of versions have been drawn. -/
theorem version_lt (hp : p ∈ l) :
    id p < m.currentStartTimestamp ∨ ∃ t ∈ m.active, id p = t.transactionId := by
  rcases h.version p hp with ⟨t, ht, hid | hid⟩ | ⟨c, hc, hid⟩
  · exact .inr ⟨t, ht, hid⟩
  · exact .inl (hm.valid.committing t _ hid).2.lt
  · exact .inl (hid ▸ (hm.committed c hc).lt)

theorem start {m' : TransactionManager}
    (hst : m.startTransaction = some (u, m')) :
    Versions m' base history (update written u.transactionId fun _ => none) l id old cur := by
  obtain ⟨-, rfl, rfl⟩ := startTransaction_eq hst
  have hne : ∀ t ∈ m.active, t.transactionId ≠ m.currentTransactionId := fun t ht =>
    (hm.valid.transactionId_mem t ht).2.ne
  have hfr : ∀ p ∈ l, ∀ n, ¬(⟨m.currentStartTimestamp + 1, n,
      ⟨m.currentTransactionId, m.currentStartTimestamp⟩ :: m.active, m.committing⟩ : TransactionManager).Owns
        ⟨m.currentTransactionId, m.currentStartTimestamp⟩ (id p) := by
    rintro p hp n (hid | hid)
    · rcases h.version_lt hm hp with hlt | ⟨t, ht, hid'⟩
      · rw [hid] at hlt
        exact absurd hlt (hm.valid.timestamp_le.trans hm.valid.le_transactionId).not_gt
      · exact hne t ht (hid'.symm.trans hid)
    · exact hne _ (hm.valid.committing _ _ hid).1 rfl
  have hwr : ∀ t ∈ m.active, ∀ k, update written m.currentTransactionId (fun _ => none)
      t.transactionId k = written t.transactionId k := fun t ht k => by
    rw [update_of_ne (hne t ht)]
  exact
    { version := fun p hp => (h.version p hp).imp_left fun ⟨t, ht, hown⟩ => ⟨t, mem_cons_of_mem _ ht, hown⟩
      unique := fun t ht p hp q hq hown hown' => by
        rcases mem_cons.1 ht with rfl | ht
        · exact absurd hown (hfr p hp _)
        · exact h.unique t ht p hp q hq hown hown'
      cur_of_old := h.cur_of_old
      old_eq := h.old_eq
      written_eq := fun t ht p hp hown k hk => by
        rcases mem_cons.1 ht with rfl | ht
        · exact absurd hown (hfr p hp _)
        · rw [hwr t ht]
          exact h.written_eq t ht p hp hown k hk
      owned := fun t ht k hk => by
        rcases mem_cons.1 ht with rfl | ht
        · rw [update_self] at hk
          exact absurd rfl hk
        · exact h.owned t ht k (hwr t ht k ▸ hk)
      cur_eq := fun k x hx hno => h.cur_eq k x hx fun t ht =>
        hwr t ht k ▸ hno t (mem_cons_of_mem _ ht)
      unwritten := h.unwritten
      present := fun c hc k hk t ht hlt => by
        rcases mem_cons.1 ht with rfl | ht
        · exact absurd hlt (hm.committed c hc).lt.not_gt
        · exact h.present c hc k hk t ht hlt
      order := h.order
      newer := h.newer.imp_of_mem fun _ hq hnwr t ht hown => by
        rcases mem_cons.1 ht with rfl | ht
        · exact absurd hown (hfr _ hq _)
        · exact hnwr t ht hown
      older := fun t ht p hp hown => by
        rcases mem_cons.1 ht with rfl | ht
        · exact absurd hown (hfr p hp _)
        · exact h.older t ht p hp hown }

theorem remove
    (hno : ∀ p ∈ l, ¬m.Owns t (id p)) (hcom : m.committing.map Prod.fst ≠ some t) :
    Versions (m.removeTransaction t) base history written l id old cur := by
  have hmem : ∀ u, u ∈ (m.removeTransaction t).active → u ∈ m.active := fun u hu => mem_of_mem_erase hu
  have howns : ∀ u p, (m.removeTransaction t).Owns u (id p) ↔ m.Owns u (id p) := fun u p => by
    rw [Owns, Owns, removeTransaction, if_neg hcom]
  exact
    { version := fun p hp => (h.version p hp).imp_left <| by
        rintro ⟨u, hu, hown⟩
        refine ⟨u, (mem_removeTransaction hm.valid).2 ⟨?_, hu⟩, (howns u p).2 hown⟩
        rintro rfl
        exact hno p hp hown
      unique := fun u hu p hp q hq hown hown' =>
        h.unique u (hmem u hu) p hp q hq ((howns u p).1 hown) ((howns u q).1 hown')
      cur_of_old := h.cur_of_old
      old_eq := h.old_eq
      written_eq := fun u hu p hp hown => h.written_eq u (hmem u hu) p hp ((howns u p).1 hown)
      owned := fun u hu k hk => by
        obtain ⟨p, hp, hown, hold⟩ := h.owned u (hmem u hu) k hk
        exact ⟨p, hp, (howns u p).2 hown, hold⟩
      cur_eq := fun k x hx hwr => h.cur_eq k x hx fun u hu => by
        by_cases hut : u = t
        · by_contra hne
          obtain ⟨p, hp, hown, -⟩ := h.owned u hu k hne
          exact hno p hp (hut ▸ hown)
        · exact hwr u ((mem_removeTransaction hm.valid).2 ⟨hut, hu⟩)
      unwritten := h.unwritten
      present := fun c hc k hk u hu => h.present c hc k hk u (hmem u hu)
      order := h.order
      newer := h.newer.imp fun hnwr u hu hown => hnwr u (hmem u hu) ((howns u _).1 hown)
      older := fun u hu p hp hown => h.older u (hmem u hu) p hp ((howns u p).1 hown) }

/-- A transaction whose versions all have the id of its commit ends: it is the latest commit now. -/
theorem commit {c : ℕ} (hcom : m.committing = some (t, c)) (hno : ∀ p ∈ l, id p ≠ t.transactionId) :
    Versions (m.removeTransaction t) base (⟨c, t.startTime, written t.transactionId⟩ :: history) written l id
      old cur := by
  have hmem : ∀ u, u ∈ (m.removeTransaction t).active → u ∈ m.active ∧ u ≠ t := fun u hu =>
    ((mem_removeTransaction hm.valid).1 hu).symm
  have ht := (hm.valid.committing t c hcom).1
  have hid : ∀ p ∈ l, m.Owns t (id p) → id p = c := by
    rintro p hp (hid | hid)
    · exact absurd hid (hno p hp)
    · rw [hcom] at hid
      exact (congrArg Prod.snd (some.inj hid)).symm
  have howns : ∀ u, u ≠ t → ∀ p, (m.removeTransaction t).Owns u (id p) ↔ m.Owns u (id p) := fun u hu p => by
    rw [Owns, Owns, removeTransaction, hcom, map_some, if_pos rfl]
    refine or_congr Iff.rfl ⟨(fun heq => by cases heq), fun heq => ?_⟩
    exact absurd (congrArg Prod.fst (some.inj heq)).symm hu
  exact
    { version := fun p hp => by
        rcases h.version p hp with ⟨u, hu, hown⟩ | ⟨d, hd, hd'⟩
        · by_cases hut : u = t
          · exact .inr ⟨_, mem_cons_self, (hid p hp (hut ▸ hown)).symm⟩
          · exact .inl ⟨u, (mem_removeTransaction hm.valid).2 ⟨hut, hu⟩, (howns u hut p).2 hown⟩
        · exact .inr ⟨d, mem_cons_of_mem _ hd, hd'⟩
      unique := fun u hu p hp q hq hown hown' => by
        obtain ⟨hu, hut⟩ := hmem u hu
        exact h.unique u hu p hp q hq ((howns u hut p).1 hown) ((howns u hut q).1 hown')
      cur_of_old := h.cur_of_old
      old_eq := fun p hp k x hx => by
        rw [h.old_eq p hp k x hx]
        rcases Nat.lt_or_ge c (id p) with hlt | hle
        · -- the version is of another transaction, which has not written the same keys
          refine (valueAt_cons_of_none ?_).symm
          by_contra hne
          obtain ⟨q, hq, hown, hqk⟩ := h.owned t ht k hne
          rcases h.version p hp with ⟨u, hu, hown'⟩ | ⟨d, hd, hd'⟩
          · have hpk : old p k ≠ none := by
              rw [hx]
              exact some_ne_none x
            obtain rfl := h.owner_unique hm ht hu hq hp hown hown' hqk hpk
            exact absurd (hid q hq hown) hlt.ne'
          · exact absurd (hm.before t c hcom d hd) (hd' ▸ hlt.not_gt)
        · exact (valueAt_cons_of_le hle).symm
      written_eq := fun u hu p hp hown => by
        obtain ⟨hu, hut⟩ := hmem u hu
        exact h.written_eq u hu p hp ((howns u hut p).1 hown)
      owned := fun u hu k hk => by
        obtain ⟨hu, hut⟩ := hmem u hu
        obtain ⟨p, hp, hown, hold⟩ := h.owned u hu k hk
        exact ⟨p, hp, (howns u hut p).2 hown, hold⟩
      cur_eq := fun k x hx hwr => by
        cases hw : written t.transactionId k with
        | none =>
          rw [valueAt_cons_of_none hw]
          refine h.cur_eq k x hx fun u hu => ?_
          by_cases hut : u = t
          · exact hut ▸ hw
          · exact hwr u ((mem_removeTransaction hm.valid).2 ⟨hut, hu⟩)
        | some y =>
          obtain ⟨p, hp, hown, hold⟩ := h.owned t ht k (by rw [hw]; exact some_ne_none y)
          have hcur := h.written_eq t ht p hp hown k hold
          rw [hw, hx] at hcur
          have hlt : c < transactionIdStart := (hm.valid.committing t c hcom).2.lt.trans_le hm.valid.timestamp_le
          rw [valueAt_cons_of_some hlt hw]
          exact (some.inj hcur).symm
      unwritten := fun k hk d hd => by
        rcases mem_cons.1 hd with rfl | hd
        · by_contra hne
          obtain ⟨p, hp, -, hold⟩ := h.owned t ht k hne
          exact h.cur_of_old p hp k hold hk
        · exact h.unwritten k hk d hd
      present := fun d hd k hk u hu hlt => by
        rcases mem_cons.1 hd with rfl | hd
        · obtain ⟨p, hp, hown, hold⟩ := h.owned t ht k hk
          exact ⟨p, hp, hid p hp hown, hold⟩
        · exact h.present d hd k hk u (hmem u hu).1 hlt
      order := h.order
      newer := h.newer.imp fun hnwr u hu hown => by
        obtain ⟨hu, hut⟩ := hmem u hu
        exact hnwr u hu ((howns u hut _).1 hown)
      older := fun u hu p hp hown => by
        obtain ⟨hu, hut⟩ := hmem u hu
        exact h.older u hu p hp ((howns u hut p).1 hown) }

/-- The latest commit did not overlap with those that wrote the same keys. -/
theorem lt_startTime {c : ℕ}
    (hcom : m.committing = some (t, c)) (hk : written t.transactionId k ≠ none) {d : Commit κ α}
    (hd : d ∈ history) (hdk : d.writes k ≠ none) : d.id < t.startTime := by
  have ht := (hm.valid.committing t c hcom).1
  by_contra hlt
  have hlt := (not_lt.1 hlt).lt_of_ne fun heq => (hm.committed d hd).ne t ht heq.symm
  obtain ⟨q, hq, hqid, hqk⟩ := h.present d hd k hdk t ht hlt
  obtain ⟨p, hp, hown, hpk⟩ := h.owned t ht k hk
  have hne : q ≠ p := by
    rintro rfl
    exact absurd (hm.lt_of_owns ht hown hd) (hqid ▸ lt_irrefl _)
  exact absurd (h.older t ht p hp hown q hq hne k hpk hqk) (hqid ▸ hlt.not_gt)

/-! ## Changes of versions -/

/-- Versions of active transactions may get another id of these: they are committed, or the commit fails. -/
theorem congr_id {id' : ℕ → ℕ} (hid : ∀ p ∈ l, id' p = id p ∨ ∃ t ∈ m.active, m.Owns t (id p) ∧ m.Owns t (id' p)) :
    Versions m base history written l id' old cur := by
  -- the versions of transactions, and the others
  have hown : ∀ p ∈ l, ∀ t ∈ m.active, m.Owns t (id' p) ↔ m.Owns t (id p) := by
    intro p hp t ht
    rcases hid p hp with heq | ⟨u, hu, howns, howns'⟩
    · rw [heq]
    · constructor
      · exact fun hown => hm.owns_inj ht hu hown howns' ▸ howns
      · exact fun hown => hm.owns_inj ht hu hown howns ▸ howns'
  have hoth : ∀ p ∈ l, (∀ t ∈ m.active, ¬m.Owns t (id p)) → id' p = id p := fun p hp hno =>
    (hid p hp).resolve_right fun ⟨t, ht, howns, _⟩ => hno t ht howns
  have hcomd : ∀ p ∈ l, (∀ t ∈ m.active, ¬m.Owns t (id p)) → ∃ c ∈ history, c.id = id p :=
    fun p hp hno => (h.version p hp).resolve_left fun ⟨t, ht, howns⟩ => hno t ht howns
  exact
    { version := fun p hp => by
        rcases h.version p hp with ⟨t, ht, howns⟩ | ⟨c, hc, hcid⟩
        · exact .inl ⟨t, ht, (hown p hp t ht).2 howns⟩
        · rcases hid p hp with heq | ⟨t, ht, -, howns⟩
          · exact .inr ⟨c, hc, hcid.trans heq.symm⟩
          · exact .inl ⟨t, ht, howns⟩
      unique := fun t ht p hp q hq hp' hq' =>
        h.unique t ht p hp q hq ((hown p hp t ht).1 hp') ((hown q hq t ht).1 hq')
      cur_of_old := h.cur_of_old
      old_eq := fun p hp k x hx => by
        rw [h.old_eq p hp k x hx]
        rcases hid p hp with heq | ⟨t, ht, howns, howns'⟩
        · rw [heq]
        · rw [hm.valueAt_latest base (fun c hc => hm.lt_of_owns ht howns hc),
            hm.valueAt_latest base (fun c hc => hm.lt_of_owns ht howns' hc)]
      written_eq := fun t ht p hp hp' => h.written_eq t ht p hp ((hown p hp t ht).1 hp')
      owned := fun t ht k hk => by
        obtain ⟨p, hp, howns, hold⟩ := h.owned t ht k hk
        exact ⟨p, hp, (hown p hp t ht).2 howns, hold⟩
      cur_eq := h.cur_eq
      unwritten := h.unwritten
      present := fun c hc k hk t ht hlt => by
        obtain ⟨p, hp, hcid, hold⟩ := h.present c hc k hk t ht hlt
        refine ⟨p, hp, ?_, hold⟩
        rw [hoth p hp fun u hu howns => (hm.lt_of_owns hu howns hc).ne hcid.symm]
        exact hcid
      order := h.order.imp_of_mem fun {p q} hp hq hord k hpk hqk => by
        have hlt := hord k hpk hqk
        by_cases hq' : ∃ t ∈ m.active, m.Owns t (id q)
        · -- the newer version is not of a transaction that has been committed, and not of another one
          obtain ⟨t, ht, howns⟩ := hq'
          rcases h.version p hp with ⟨u, hu, howns'⟩ | ⟨c, hc, hcid⟩
          · obtain rfl := h.owner_unique hm hu ht hp hq howns' howns hpk hqk
            exact absurd hlt (lt_irrefl _)
          · exact absurd (hm.lt_of_owns ht howns hc) (hcid ▸ hlt.not_gt)
        · have hq' : ∀ t ∈ m.active, ¬m.Owns t (id q) := fun t ht howns => hq' ⟨t, ht, howns⟩
          rw [hoth q hq hq']
          obtain ⟨c, hc, hcid⟩ := hcomd q hq hq'
          rcases hid p hp with heq | ⟨t, ht, -, howns⟩
          · exact heq ▸ hlt
          · exact hcid ▸ hm.lt_of_owns ht howns hc
      newer := h.newer.imp_of_mem fun {p q} hp hq hnwr t ht howns => by
        have hlt := hnwr t ht ((hown q hq t ht).1 howns)
        rcases hid p hp with heq | ⟨u, hu, -, howns'⟩
        · exact heq ▸ hlt
        · exact hm.startTime_lt_of_owns hu ht howns'
      older := fun t ht p hp howns q hq hne k hpk hqk => by
        have hlt := h.older t ht p hp ((hown p hp t ht).1 howns) q hq hne k hpk hqk
        rw [hoth q hq fun u hu howns' => (hm.startTime_lt_of_owns hu ht howns').not_gt hlt]
        exact hlt }

omit hm in
/-- What is said about versions depends only on those of the list. -/
theorem congr {id' : ℕ → ℕ} {old' : ℕ → κ → Option α} (hid : ∀ p ∈ l, id' p = id p) (hold : ∀ p ∈ l, old' p = old p) :
    Versions m base history written l id' old' cur where
  version p hp := by
    rw [hid p hp]
    exact h.version p hp
  unique t ht p hp q hq := by
    rw [hid p hp, hid q hq]
    exact h.unique t ht p hp q hq
  cur_of_old p hp := by
    rw [hold p hp]
    exact h.cur_of_old p hp
  old_eq p hp := by
    rw [hold p hp, hid p hp]
    exact h.old_eq p hp
  written_eq t ht p hp := by
    rw [hold p hp, hid p hp]
    exact h.written_eq t ht p hp
  owned t ht k hk := by
    obtain ⟨p, hp, hown, hpk⟩ := h.owned t ht k hk
    exact ⟨p, hp, (hid p hp).symm ▸ hown, (hold p hp).symm ▸ hpk⟩
  cur_eq := h.cur_eq
  unwritten := h.unwritten
  present c hc k hk t ht hlt := by
    obtain ⟨p, hp, hcid, hpk⟩ := h.present c hc k hk t ht hlt
    exact ⟨p, hp, (hid p hp).trans hcid, (hold p hp).symm ▸ hpk⟩
  order := h.order.imp_of_mem fun hp hq hord => by
    rw [hid _ hp, hid _ hq, hold _ hp, hold _ hq]
    exact hord
  newer := h.newer.imp_of_mem fun hp hq hnwr => by
    rw [hid _ hp, hid _ hq]
    exact hnwr
  older t ht p hp hown q hq hne k hpk hqk := by
    rw [hid p hp] at hown
    rw [hold p hp] at hpk
    rw [hold q hq] at hqk
    rw [hid q hq]
    exact h.older t ht p hp hown q hq hne k hpk hqk

/-- A version that all transactions see is removed. -/
theorem cleanup (hnd : l.Nodup) (hp : m.Settled (id p)) : Versions m base history written (l.erase p) id old cur := by
  have hmem : ∀ q ∈ l.erase p, q ∈ l := fun q hq => mem_of_mem_erase hq
  have hne : ∀ t ∈ m.active, ¬m.Owns t (id p) := fun t ht hown =>
    (hm.startTime_lt_of_owns ht ht hown).not_gt (hp.before t ht)
  exact
    { version := fun q hq => h.version q (hmem q hq)
      unique := fun t ht q hq r hr => h.unique t ht q (hmem q hq) r (hmem r hr)
      cur_of_old := fun q hq => h.cur_of_old q (hmem q hq)
      old_eq := fun q hq => h.old_eq q (hmem q hq)
      written_eq := fun t ht q hq => h.written_eq t ht q (hmem q hq)
      owned := fun t ht k hk => by
        obtain ⟨q, hq, hown, hold⟩ := h.owned t ht k hk
        refine ⟨q, hnd.mem_erase_iff.2 ⟨?_, hq⟩, hown, hold⟩
        rintro rfl
        exact hne t ht hown
      cur_eq := h.cur_eq
      unwritten := h.unwritten
      present := fun c hc k hk t ht hlt => by
        obtain ⟨q, hq, hcid, hold⟩ := h.present c hc k hk t ht hlt
        refine ⟨q, hnd.mem_erase_iff.2 ⟨?_, hq⟩, hcid, hold⟩
        rintro rfl
        exact (hcid ▸ hlt).not_gt (hp.before t ht)
      order := h.order.sublist erase_sublist
      newer := h.newer.sublist erase_sublist
      older := fun t ht q hq hown r hr => h.older t ht q (hmem q hq) hown r (hmem r hr) }

/-- The version of a transaction is rolled back: its keys get their values from before. -/
theorem rollback {cur' : κ → Option α} (hnd : l.Nodup) (ht : t ∈ m.active) (hp : p ∈ l) (hown : m.Owns t (id p))
    (hcur : ∀ k, cur' k = (old p k).or (cur k)) :
    Versions m base history (update written t.transactionId fun _ => none) (l.erase p) id old cur' := by
  have hmem : ∀ q ∈ l.erase p, q ≠ p ∧ q ∈ l := fun q hq => hnd.mem_erase_iff.1 hq
  -- versions of others have other keys, where nothing changes
  have hoth : ∀ u ∈ m.active, ∀ q ∈ l.erase p, m.Owns u (id q) →
      u.transactionId ≠ t.transactionId ∧ ∀ k, old q k ≠ none → cur' k = cur k := by
    intro u hu q hq hown'
    obtain ⟨hqp, hq⟩ := hmem q hq
    constructor
    · intro heq
      obtain rfl := hm.valid.transactionId_inj u hu t ht heq
      exact hqp (h.unique u hu q hq p hp hown' hown)
    · intro k hk
      have hno : old p k = none := by
        by_contra hne
        exact hqp (h.owner_unique hm hu ht hq hp hown' hown hk hne)
      rw [hcur, hno, none_or]
  have hwr : ∀ k, old p k = none → written t.transactionId k = none := by
    intro k hk
    by_contra hne
    obtain ⟨q, hq, hown', hqk⟩ := h.owned t ht k hne
    obtain rfl := h.unique t ht q hq p hp hown' hown
    exact hqk hk
  have hcur_ne : ∀ k, cur k ≠ none → cur' k ≠ none := fun k hk => by
    rw [hcur, Ne, or_eq_none_iff]
    exact fun hno => hk hno.2
  exact
    { version := fun q hq => h.version q (hmem q hq).2
      unique := fun u hu q hq r hr => h.unique u hu q (hmem q hq).2 r (hmem r hr).2
      cur_of_old := fun q hq k hk => hcur_ne k (h.cur_of_old q (hmem q hq).2 k hk)
      old_eq := fun q hq => h.old_eq q (hmem q hq).2
      written_eq := fun u hu q hq hown' k hk => by
        obtain ⟨hne, hcur'⟩ := hoth u hu q hq hown'
        rw [update_of_ne hne, hcur' k hk]
        exact h.written_eq u hu q (hmem q hq).2 hown' k hk
      owned := fun u hu k hk => by
        by_cases hut : u = t
        · rw [hut, update_self] at hk
          exact absurd rfl hk
        · rw [update_of_ne fun heq => hut (hm.valid.transactionId_inj u hu t ht heq)] at hk
          obtain ⟨q, hq, hown', hqk⟩ := h.owned u hu k hk
          refine ⟨q, hnd.mem_erase_iff.2 ⟨?_, hq⟩, hown', hqk⟩
          rintro rfl
          exact hut (hm.owns_inj hu ht hown' hown)
      cur_eq := fun k x hx hno => by
        rw [hcur] at hx
        cases hpk : old p k with
        | some y =>
          rw [hpk, some_or] at hx
          rw [← some.inj hx, h.old_eq p hp k y hpk]
          exact hm.valueAt_latest base (fun c hc => hm.lt_of_owns ht hown hc) k
        | none =>
          rw [hpk, none_or] at hx
          refine h.cur_eq k x hx fun u hu => ?_
          by_cases hut : u = t
          · exact hut ▸ hwr k hpk
          · have hno := hno u hu
            rwa [update_of_ne fun heq => hut (hm.valid.transactionId_inj u hu t ht heq)] at hno
      unwritten := fun k hk => h.unwritten k (by_contra fun hne => hcur_ne k hne hk)
      present := fun c hc k hk u hu hlt => by
        obtain ⟨q, hq, hcid, hold⟩ := h.present c hc k hk u hu hlt
        refine ⟨q, hnd.mem_erase_iff.2 ⟨?_, hq⟩, hcid, hold⟩
        rintro rfl
        exact (hm.lt_of_owns ht hown hc).ne hcid.symm
      order := h.order.sublist erase_sublist
      newer := h.newer.sublist erase_sublist
      older := fun u hu q hq hown' r hr => h.older u hu q (hmem q hq).2 hown' r (hmem r hr).2 }

/-! ## Writes -/

/-- A transaction gets a version, which is the newest one and has no keys so far. -/
theorem cons (ht : t ∈ m.active)
    (hno : ∀ q ∈ l, ¬m.Owns t (id q)) (hid : id p = t.transactionId) (hold : ∀ k, old p k = none) :
    Versions m base history written (p :: l) id old cur := by
  have hown : m.Owns t (id p) := .inl hid
  exact
    { version := fun q hq => by
        rcases mem_cons.1 hq with rfl | hq
        · exact .inl ⟨t, ht, hown⟩
        · exact h.version q hq
      unique := fun u hu q hq r hr hq' hr' => by
        rcases mem_cons.1 hq with rfl | hql <;> rcases mem_cons.1 hr with rfl | hrl
        · rfl
        · exact absurd (hm.owns_inj hu ht hq' hown ▸ hr') (hno r hrl)
        · exact absurd (hm.owns_inj hu ht hr' hown ▸ hq') (hno q hql)
        · exact h.unique u hu q hql r hrl hq' hr'
      cur_of_old := fun q hq k hk => by
        rcases mem_cons.1 hq with rfl | hq
        · exact absurd (hold k) hk
        · exact h.cur_of_old q hq k hk
      old_eq := fun q hq k x hx => by
        rcases mem_cons.1 hq with rfl | hq
        · exact nomatch (hold k).symm.trans hx
        · exact h.old_eq q hq k x hx
      written_eq := fun u hu q hq hown' k hk => by
        rcases mem_cons.1 hq with rfl | hq
        · exact absurd (hold k) hk
        · exact h.written_eq u hu q hq hown' k hk
      owned := fun u hu k hk => by
        obtain ⟨q, hq, hown', hqk⟩ := h.owned u hu k hk
        exact ⟨q, mem_cons_of_mem _ hq, hown', hqk⟩
      cur_eq := h.cur_eq
      unwritten := h.unwritten
      present := fun c hc k hk u hu hlt => by
        obtain ⟨q, hq, hcid, hqk⟩ := h.present c hc k hk u hu hlt
        exact ⟨q, mem_cons_of_mem _ hq, hcid, hqk⟩
      order := pairwise_cons.2 ⟨fun q _ k hk => absurd (hold k) hk, h.order⟩
      newer := pairwise_cons.2 ⟨fun q _ u hu _ => hm.startTime_lt_of_owns ht hu hown, h.newer⟩
      older := fun u hu q hq hown' r hr hne k hqk hrk => by
        rcases mem_cons.1 hq with rfl | hq
        · exact absurd (hold k) hqk
        · rcases mem_cons.1 hr with rfl | hr
          · exact absurd (hold k) hrk
          · exact h.older u hu q hq hown' r hr hne k hqk hrk }

end

section Write

variable {old' : ℕ → κ → Option α} {cur' writes : κ → Option α}

/-- A transaction writes keys that have no newer version: its version gets the values they have so far. -/
theorem write (h : Versions m base history written l id old cur) (hm : m.Past history) (hnd : l.Nodup)
    (ht : t ∈ m.active) (hcom : ∀ c, m.committing ≠ some (t, c)) (hp : p ∈ l) (hid : id p = t.transactionId)
    (hconf : ∀ q ∈ l, q ≠ p → t.startTime < id q → ∀ k, writes k ≠ none → old q k = none)
    (hoth : ∀ q, q ≠ p → old' q = old q)
    (hold : ∀ k, old' p k = (old p k).or ((writes k).map fun _ => (cur k).getD (base k)))
    (hcur : ∀ k, cur' k = (writes k).or (cur k)) :
    Versions m base history (update written t.transactionId fun k =>
      (writes k).or (written t.transactionId k)) l id old' cur' := by
  have hown : m.Owns t (id p) := .inl hid
  -- the version has a key if it had it before, or if it is written
  have hmem : ∀ k, old' p k ≠ none → old p k ≠ none ∨ writes k ≠ none := by
    intro k hk
    by_contra hno
    rw [not_or, not_not, not_not] at hno
    rw [hold, hno.1, hno.2] at hk
    exact hk rfl
  have hmem_old : ∀ q k, old q k ≠ none → old' q k ≠ none := by
    intro q k hk
    by_cases hqp : q = p
    · rw [hqp, hold, Ne, or_eq_none_iff]
      exact fun hno => hk (hqp ▸ hno.1)
    · exact hoth q hqp ▸ hk
  -- what is written is not in the version of another transaction
  have hfree : ∀ u ∈ m.active, ∀ q ∈ l, m.Owns u (id q) → q ≠ p → ∀ k, old q k ≠ none → writes k = none := by
    intro u hu q hq hown' hqp k hk
    by_contra hne
    exact hk (hconf q hq hqp (hm.startTime_lt_of_owns hu ht hown') k hne)
  have hcur_ne : ∀ k, cur k ≠ none → cur' k ≠ none := fun k hk => by
    rw [hcur, Ne, or_eq_none_iff]
    exact fun hno => hk hno.2
  have hwr : ∀ u ∈ m.active, u ≠ t → ∀ k, update written t.transactionId
      (fun k => (writes k).or (written t.transactionId k)) u.transactionId k = written u.transactionId k := by
    intro u hu hut k
    rw [update_of_ne fun heq => hut (hm.valid.transactionId_inj u hu t ht heq)]
  exact
    { version := h.version
      unique := h.unique
      cur_of_old := fun q hq k hk => by
        by_cases hqp : q = p
        · rcases hmem k (hqp ▸ hk) with hk | hk
          · exact hcur_ne k (h.cur_of_old p hp k hk)
          · rw [hcur, Ne, or_eq_none_iff]
            exact fun hno => hk hno.1
        · exact hcur_ne k (h.cur_of_old q hq k (hoth q hqp ▸ hk))
      old_eq := fun q hq k x hx => by
        by_cases hqp : q = p
        · rw [hqp, hold] at hx
          rw [hqp]
          cases hpk : old p k with
          | some y =>
            rw [hpk, some_or] at hx
            exact some.inj hx ▸ h.old_eq p hp k y hpk
          | none =>
            rw [hpk, none_or, map_eq_some_iff] at hx
            obtain ⟨y, hy, rfl⟩ := hx
            have hk : writes k ≠ none := by
              rw [hy]
              exact some_ne_none y
            -- the transaction has seen the value that the key has so far
            have hnew : ∀ q ∈ l, t.startTime < id q → old q k = none := fun q hq hlt => by
              by_cases hqp : q = p
              · exact hqp ▸ hpk
              · exact hconf q hq hqp hlt k hk
            have hno : written t.transactionId k = none := by
              by_contra hne
              obtain ⟨q, hq, hown', hqk⟩ := h.owned t ht k hne
              obtain rfl := h.unique t ht q hq p hp hown' hown
              exact hqk hpk
            rw [h.snapshot_eq hm ht hcom fun q hq hlt _ => hnew q hq hlt, hno, getD_none, hid]
            refine valueAt_eq (hm.valid.startTime_lt_transactionId ht ht).le fun c hc hge _ => ?_
            by_contra hck
            have hlt := hge.lt_of_ne fun heq => (hm.committed c hc).ne t ht heq.symm
            obtain ⟨q, hq, hcid, hqk⟩ := h.present c hc k hck t ht hlt
            exact hqk (hnew q hq (hcid ▸ hlt))
        · exact h.old_eq q hq k x (hoth q hqp ▸ hx)
      written_eq := fun u hu q hq hown' k hk => by
        by_cases hqp : q = p
        · obtain rfl := hm.owns_inj hu ht (hqp ▸ hown') hown
          rw [update_self, hcur]
          cases hw : writes k with
          | some x => rw [some_or, some_or]
          | none =>
            have hk := (hmem k (hqp ▸ hk)).resolve_right fun hne => hne hw
            exact h.written_eq u hu p hp hown k hk
        · have hut : u ≠ t := by
            rintro rfl
            exact hqp (h.unique u hu q hq p hp hown' hown)
          rw [hoth q hqp] at hk
          rw [hwr u hu hut, hcur, hfree u hu q hq hown' hqp k hk, none_or]
          exact h.written_eq u hu q hq hown' k hk
      owned := fun u hu k hk => by
        by_cases hut : u = t
        · rw [hut, update_self] at hk
          cases hw : writes k with
          | some x =>
            refine ⟨p, hp, hut ▸ hown, ?_⟩
            rw [hold, hw, Ne, or_eq_none_iff]
            exact fun hno => nomatch hno.2
          | none =>
            rw [hw, none_or] at hk
            obtain ⟨q, hq, hown', hqk⟩ := h.owned t ht k hk
            exact ⟨q, hq, hut ▸ hown', hmem_old q k hqk⟩
        · rw [hwr u hu hut] at hk
          obtain ⟨q, hq, hown', hqk⟩ := h.owned u hu k hk
          exact ⟨q, hq, hown', hmem_old q k hqk⟩
      cur_eq := fun k x hx hno => by
        have hw := hno t ht
        rw [update_self, or_eq_none_iff] at hw
        rw [hcur, hw.1, none_or] at hx
        refine h.cur_eq k x hx fun u hu => ?_
        by_cases hut : u = t
        · exact hut ▸ hw.2
        · exact hwr u hu hut k ▸ hno u hu
      unwritten := fun k hk => h.unwritten k (by_contra fun hne => hcur_ne k hne hk)
      present := fun c hc k hk u hu hlt => by
        obtain ⟨q, hq, hcid, hqk⟩ := h.present c hc k hk u hu hlt
        exact ⟨q, hq, hcid, hmem_old q k hqk⟩
      order := (h.order.and (h.newer.and hnd)).imp_of_mem fun {q r} hq hr hqr k hqk hrk => by
        obtain ⟨hord, hnwr, hne⟩ := hqr
        by_cases hqp : q = p
        · -- the version of the transaction is newer
          rw [hoth r (hqp ▸ hne.symm)] at hrk
          rcases hmem k (hqp ▸ hqk) with hqk | hw
          · exact hord k (hqp ▸ hqk) hrk
          · have hle : id r ≤ t.startTime := not_lt.1 fun hlt =>
              hrk (hconf r hr (hqp ▸ hne.symm) hlt k hw)
            rw [hqp, hid]
            exact hle.trans_lt (hm.valid.startTime_lt_transactionId ht ht)
        · rw [hoth q hqp] at hqk
          by_cases hrp : r = p
          · rcases hmem k (hrp ▸ hrk) with hrk | hw
            · exact hord k hqk (hrp ▸ hrk)
            · -- newer versions are not before the start of the transaction
              exact absurd (hconf q hq hqp (hnwr t ht (hrp ▸ hown)) k hw) hqk
          · exact hord k hqk (hoth r hrp ▸ hrk)
      newer := h.newer
      older := fun u hu q hq hown' r hr hne k hqk hrk => by
        by_cases hqp : q = p
        · obtain rfl := hm.owns_inj hu ht (hqp ▸ hown') hown
          rw [hoth r (hqp ▸ hne)] at hrk
          rcases hmem k (hqp ▸ hqk) with hqk | hw
          · exact h.older u hu p hp hown r hr (hqp ▸ hne) k hqk hrk
          · have hle : id r ≤ u.startTime := not_lt.1 fun hlt => hrk (hconf r hr (hqp ▸ hne) hlt k hw)
            refine hle.lt_of_ne ?_
            rcases h.version r hr with ⟨v, hv, hown''⟩ | ⟨c, hc, hcid⟩
            · exact absurd (hm.startTime_lt_of_owns hv hu hown'') hle.not_gt
            · exact hcid ▸ (hm.committed c hc).ne u hu
        · rw [hoth q hqp] at hqk
          by_cases hrp : r = p
          · rcases hmem k (hrp ▸ hrk) with hrk | hw
            · exact h.older u hu q hq hown' r hr hne k hqk (hrp ▸ hrk)
            · exact absurd (hfree u hu q hq hown' hqp k hqk) hw
          · exact h.older u hu q hq hown' r hr hne k hqk (hoth r hrp ▸ hrk) }

theorem first (hm : m.Past history) (ht : t ∈ m.active) (hwr : ∀ u ∈ m.active, ∀ k, written u.transactionId k = none)
    (hhist : ∀ c ∈ history, ∀ k, c.writes k = none) (hid : id p = t.transactionId)
    (hold : ∀ k, old p k = (writes k).map fun _ => base k) :
    Versions m base history (update written t.transactionId fun k =>
      (writes k).or (written t.transactionId k)) [p] id old writes := by
  have hown : m.Owns t (id p) := .inl hid
  have howner : ∀ u ∈ m.active, ∀ q, q ∈ [p] → m.Owns u (id q) → q = p ∧ u = t := fun u hu q hq hown' => by
    obtain rfl := mem_singleton.1 hq
    exact ⟨rfl, hm.owns_inj hu ht hown' hown⟩
  have hmem : ∀ k, old p k ≠ none ↔ writes k ≠ none := fun k => by
    rw [hold, Ne, map_eq_none_iff]
  exact
    { version := fun q hq => .inl ⟨t, ht, mem_singleton.1 hq ▸ hown⟩
      unique := fun u hu q hq r hr hq' hr' => (howner u hu q hq hq').1.trans (howner u hu r hr hr').1.symm
      cur_of_old := fun q hq k hk => (hmem k).1 (mem_singleton.1 hq ▸ hk)
      old_eq := fun q hq k x hx => by
        obtain rfl := mem_singleton.1 hq
        rw [hold, map_eq_some_iff] at hx
        obtain ⟨-, -, rfl⟩ := hx
        exact (valueAt_eq_base (fun c hc => hhist c hc k) _).symm
      written_eq := fun u hu q hq hown' k hk => by
        obtain ⟨rfl, rfl⟩ := howner u hu q hq hown'
        rw [update_self, hwr u hu, or_none]
      owned := fun u hu k hk => by
        by_cases hut : u = t
        · rw [hut, update_self, hwr t ht, or_none] at hk
          exact ⟨p, mem_singleton_self p, hut ▸ hown, (hmem k).2 hk⟩
        · rw [update_of_ne fun heq => hut (hm.valid.transactionId_inj u hu t ht heq)] at hk
          exact absurd (hwr u hu k) hk
      cur_eq := fun k x hx hno => by
        have hw := hno t ht
        rw [update_self, or_eq_none_iff, hx] at hw
        exact nomatch hw.1
      unwritten := fun k _ c hc => hhist c hc k
      present := fun c hc k hk => absurd (hhist c hc k) hk
      order := pairwise_singleton _ _
      newer := pairwise_singleton _ _
      older := fun u hu q hq hown' r hr hne => absurd
        ((mem_singleton.1 hr).trans (mem_singleton.1 hq).symm) hne }

end Write

end Versions

end WfOpt

import WfOpt.Lib.Lex
import WfOpt.Sort.Key
import WfOpt.Window.TokenTree

/-!
# Framed ranks

A rank function with an `ORDER BY` argument ranks the rows of the frame by a token tree. If the ordering of the
argument is a prefix of that of the window, the bounds of the peers in the window are used instead. This *shortcut*
gives the values of the tree for the frames that the row is in or right behind, if the rows of the frame with the
argument of the row are its peers in the window (`shortcut_agrees_iff`).
-/

namespace WfOpt

open List

/-! ## Model -/

/-- `BoundOrderByNode`. -/
structure BoundOrderByNode (X : Type*) where
  type : OrderType
  nullOrder : OrderByNullType
  expression : X
  deriving DecidableEq

/-- The loop of `GetSharedOrders`, with `result` nodes found to be equal. -/
def sharedOrders {X : Type*} [DecidableEq X] : ℕ → List (BoundOrderByNode X) → List (BoundOrderByNode X) → ℕ
  | result, l :: lhs, r :: rhs => if l ≠ r then 0 else sharedOrders (result + 1) lhs rhs
  | result, _, _ => result

/-- `GetSharedOrders`. -/
def getSharedOrders {X : Type*} [DecidableEq X] (lhs rhs : List (BoundOrderByNode X)) : ℕ := sharedOrders 0 lhs rhs

/-- `FindNextStart`, with `n = 1`. -/
def findNextStart (mask : ℕ → Bool) (l r : ℕ) : ℕ := ((range' l (r - l)).find? mask).getD r

namespace HashGroup

/-- The bound `PARTITION_END` of a row. -/
def partitionEnd (g : HashGroup) (r : ℕ) : ℕ := findNextStart g.partitionMask (g.partitionBegin r + 1) g.count

/-- The bound `PEER_END` of a row. -/
def peerEnd (g : HashGroup) (r : ℕ) : ℕ := findNextStart g.orderMask (g.peerBegin r + 1) (g.partitionEnd r)

end HashGroup

/-- The rows of a hash group, sorted for a window, and the `ORDER BY` argument of a rank function. -/
structure OrderedRows (X V : Type*) [LinearOrder V] extends ChunkedRows where
  partitions : List (BoundOrderByNode X)
  orders : List (BoundOrderByNode X)
  argOrders : List (BoundOrderByNode X)
  /-- The value of a row, in the order of the node: with its direction, and its place of `NULL`. -/
  sortValue : BoundOrderByNode X → ℕ → V
  chunks_le : ∀ n ∈ chunks, n ≤ standardVectorSize
  count_lt : toChunkedRows.count < idxRange
  sorted : ∀ i j, i ≤ j → j < toChunkedRows.count →
    (partitions ++ orders).map (sortValue · i) ≤ (partitions ++ orders).map (sortValue · j)

namespace OrderedRows

variable {X V : Type*} [LinearOrder V] (P : OrderedRows X V)

/-- The values of a row. -/
def keys (nodes : List (BoundOrderByNode X)) (row : ℕ) : List V := nodes.map (P.sortValue · row)

/-- The rows as the masks of the group are computed from them. -/
def masked : MaskedRows (Option V) where
  toChunkedRows := P.toChunkedRows
  value r c := (P.keys (P.partitions ++ P.orders) r)[c]?
  partitionCount := P.partitions.length
  orderColumns := [P.partitions.length + P.orders.length]
  partitionCount_le _ ho := mem_singleton.1 ho ▸ Nat.le_add_right _ _
  sort := true

instance (m : MaskId) (r : ℕ) : Decidable (P.masked.IsStart m r) := inferInstanceAs (Decidable (r = 0 ∨
    ∃ c < P.masked.columns m, P.masked.value r c ≠ P.masked.value (r - 1) c))

/-- The group with its masks. -/
def group : HashGroup where
  toChunkedRows := P.toChunkedRows
  partitionMask r := decide (P.masked.IsStart .partition r)
  orderMask r := decide (P.masked.IsStart (.order (P.partitions.length + P.orders.length)) r)
  chunks_le := P.chunks_le
  partition_zero := decide_eq_true (.inl rfl)
  order_of_partition r h := by
    rw [decide_eq_true_iff] at h ⊢
    exact h.imp_right fun h => h.mono (Nat.le_add_right _ _)
  count_lt := P.count_lt

/-- The token tree for the argument. That of `row_number` has unique keys. -/
def tokenTree (unique : Bool) : TokenTree V where
  count := P.count
  keys := P.keys P.argOrders
  keyCount := P.argOrders.length
  length_keys _ := length_map _
  unique := unique

end OrderedRows

/-- `UnsafeNumericCast<int64_t>`. -/
def toInt64 (n : ℕ) : ℤ := Int.bmod n idxRange

/-- The rank of a row in a frame, without a token tree: the peers are clamped to the frame. -/
def framedRank (frameBegin peerBegin : ℕ) : ℤ := let framePeerBegin := max frameBegin peerBegin
  toInt64 (idxAdd (idxSub framePeerBegin frameBegin) 1)

/-- The number of a row in a frame, without a token tree. -/
def framedRowNumber (frameBegin rowIdx : ℕ) : ℤ := toInt64 (idxAdd (idxSub rowIdx frameBegin) 1)

/-- The end of the peers of a row in a frame, without a token tree, for `cume_dist`. -/
def framedPeerEnd (frameEnd peerEnd : ℕ) : ℕ := min peerEnd frameEnd

/-! ## Starts of runs of equal keys -/

theorem findNextStart_spec (mask : ℕ → Bool) {l r : ℕ} (hlr : l ≤ r) :
    l ≤ findNextStart mask l r ∧ findNextStart mask l r ≤ r ∧
      (∀ s, l ≤ s → s < findNextStart mask l r → mask s = false) ∧
      (findNextStart mask l r < r → mask (findNextStart mask l r) = true) := by
  obtain ⟨n, rfl⟩ := Nat.exists_eq_add_of_le hlr
  rw [findNextStart, Nat.add_sub_cancel_left]
  clear hlr
  induction n generalizing l with
  | zero => exact ⟨le_rfl, le_rfl, fun s h₁ h₂ => absurd h₁ (not_le.2 h₂), fun h => absurd h (lt_irrefl _)⟩
  | succ n ih =>
    rw [range'_succ]
    by_cases hl : mask l = true
    · rw [find?_cons_of_pos hl, Option.getD_some]
      exact ⟨le_rfl, by omega, fun s h₁ h₂ => absurd h₁ (not_le.2 h₂), fun _ => hl⟩
    · rw [find?_cons_of_neg hl, show l + (n + 1) = l + 1 + n by omega]
      obtain ⟨h₁, h₂, h₃, h₄⟩ := @ih (l + 1)
      refine ⟨by omega, h₂, fun s hls hs => ?_, h₄⟩
      rcases hls.eq_or_lt with rfl | hlt
      · exact Bool.eq_false_of_not_eq_true hl
      · exact h₃ s hlt hs

theorem eq_of_no_start {K : Type*} {f : ℕ → K} {i j : ℕ} (hij : i ≤ j)
    (h : ∀ s, i < s → s ≤ j → f s = f (s - 1)) : f i = f j := by
  induction j, hij using Nat.le_induction with
  | base => rfl
  | succ j hij ih =>
    rw [ih fun s h₁ h₂ => h s h₁ (by omega), h (j + 1) (by omega) le_rfl, Nat.add_sub_cancel]

section Runs

variable {K : Type*} [LinearOrder K] {f : ℕ → K} {a b : ℕ} {mask : ℕ → Bool}

/-- Up to the start of its run come the rows with smaller keys. -/
theorem lt_lastStart_iff (hmono : ∀ i j, a ≤ i → i ≤ j → j < b → f i ≤ f j)
    (hmask : ∀ s, a < s → s < b → (mask s = true ↔ f s ≠ f (s - 1))) (ha : mask a = true)
    {row i : ℕ} (harow : a ≤ row) (hrow : row < b) (hai : a ≤ i) (hib : i < b) :
    i < lastStart mask row ↔ f i < f row := by
  obtain ⟨start, hst⟩ : ∃ start, start = lastStart mask row := ⟨_, rfl⟩
  have hle : start ≤ row := hst ▸ lastStart_le mask row
  have hastart : a ≤ start := hst ▸ le_lastStart ha harow
  have hno : ∀ s, start < s → s ≤ row → f s = f (s - 1) := by
    intro s h₁ h₂
    by_contra hne
    have := le_lastStart ((hmask s (by omega) (by omega)).2 hne) h₂
    omega
  have heq : f start = f row := eq_of_no_start hle hno
  rw [← hst]
  constructor
  · intro hlt
    have hmaskStart : mask start = true := by
      rw [hst]
      exact Nat.findGreatest_spec (P := fun s => mask s = true) harow ha
    have hne := (hmask start (by omega) (by omega)).1 hmaskStart
    calc f i ≤ f (start - 1) := hmono i (start - 1) hai (by omega) (by omega)
      _ < f start := lt_of_le_of_ne (hmono _ _ (by omega) (by omega) (by omega)) hne.symm
      _ = f row := heq
  · intro hlt
    by_contra hge
    rw [← heq] at hlt
    exact absurd (hmono start i hastart (not_lt.1 hge) hib) (not_le.2 hlt)

/-- Up to the end of its run come the rows with keys that are not larger. -/
theorem lt_findNextStart_iff (hmono : ∀ i j, a ≤ i → i ≤ j → j < b → f i ≤ f j)
    (hmask : ∀ s, a < s → s < b → (mask s = true ↔ f s ≠ f (s - 1))) (ha : mask a = true)
    {row i : ℕ} (harow : a ≤ row) (hrow : row < b) (hai : a ≤ i) (hib : i < b) :
    i < findNextStart mask (lastStart mask row + 1) b ↔ f i ≤ f row := by
  have hle := lastStart_le mask row
  have hastart : a ≤ lastStart mask row := le_lastStart ha harow
  obtain ⟨h₁, h₂, h₃, h₄⟩ := findNextStart_spec mask (l := lastStart mask row + 1) (r := b) (by omega)
  generalize findNextStart mask (lastStart mask row + 1) b = stop at *
  have hno : ∀ s, lastStart mask row < s → s < stop → f s = f (s - 1) := by
    intro s hs hstp
    by_contra hne
    have := (hmask s (by omega) (by omega)).2 hne
    rw [h₃ s hs hstp] at this
    exact absurd this (by decide)
  have heq : ∀ s, lastStart mask row ≤ s → s < stop → f (lastStart mask row) = f s :=
    fun s hs hstp => eq_of_no_start hs fun k hk hks => hno k hk (by omega)
  -- The row itself is before the next start, as the last one is not behind it.
  have hrowStop : row < stop := by
    by_contra hge
    have := le_lastStart (h₄ (by omega)) (not_lt.1 hge)
    omega
  constructor
  · intro hlt
    rcases Nat.lt_or_ge i row with hir | hir
    · exact hmono i row hai hir.le hrow
    · exact ((heq i (by omega) hlt).symm.trans (heq row hle hrowStop)).le
  · intro hfi
    by_contra hge
    have hne := (hmask stop (by omega) (by omega)).1 (h₄ (by omega))
    have hlt : f row < f stop := lt_of_le_of_ne (hmono _ _ harow hrowStop.le (by omega)) fun h => hne (by
        rw [← h, ← heq row hle hrowStop, ← heq (stop - 1) (by omega) (by omega)])
    exact absurd (hmono stop i (by omega) (not_lt.1 hge) hib) (not_le.2 (hfi.trans_lt hlt))

/-- Rows with keys below a bound come first. -/
theorem exists_cut {p : ℕ → Prop} (hab : a ≤ b) (hp : ∀ i j, a ≤ i → i ≤ j → j < b → p j → p i) :
    ∃ c, a ≤ c ∧ c ≤ b ∧ ∀ i, a ≤ i → i < b → (p i ↔ i < c) := by
  induction b, hab using Nat.le_induction with
  | base => exact ⟨a, le_rfl, le_rfl, fun i h₁ h₂ => absurd h₁ (not_le.2 h₂)⟩
  | succ b hab ih =>
    obtain ⟨c, hac, hcb, hc⟩ := ih fun i j h₁ h₂ h₃ => hp i j h₁ h₂ (by omega)
    by_cases hpb : p b
    · refine ⟨b + 1, by omega, le_rfl, fun i h₁ h₂ => iff_of_true ?_ h₂⟩
      exact hp i b h₁ (by omega) (by omega) hpb
    · refine ⟨c, hac, by omega, fun i h₁ h₂ => ?_⟩
      rcases Nat.lt_succ_iff_lt_or_eq.1 h₂ with h | rfl
      · exact hc i h₁ h
      · exact iff_of_false hpb (by omega)

end Runs

theorem frameCount_of_cut {p : ℕ → Prop} [DecidablePred p] {lower upper c : ℕ}
    (h : ∀ i, lower ≤ i → i < upper → (p i ↔ i < c)) :
    TokenTree.frameCount p lower upper = min upper c - lower := by
  rw [TokenTree.frameCount_congr h, TokenTree.frameCount]
  clear h
  induction hn : upper - lower generalizing lower with
  | zero =>
    rw [range'_zero, countP_nil]
    omega
  | succ n ih =>
    rw [range'_succ, countP_cons, ih (by omega)]
    by_cases hlt : lower < c
    · rw [if_pos (decide_eq_true hlt)]
      omega
    · rw [if_neg (by simpa using hlt)]
      omega

/-! ## Shared orderings -/

/-- A shared ordering of the length of the second one makes this a prefix of the first. -/
theorem isPrefix_of_getSharedOrders {X : Type*} [DecidableEq X] {lhs rhs : List (BoundOrderByNode X)}
    (h : getSharedOrders lhs rhs = rhs.length) : rhs <+: lhs := by
  have hloop : ∀ n, sharedOrders n lhs rhs = n + rhs.length → rhs <+: lhs := by
    clear h
    induction lhs generalizing rhs with
    | nil =>
      intro n h
      cases rhs with
      | nil => exact nil_prefix
      | cons r rhs =>
        simp [sharedOrders] at h
    | cons l lhs ih =>
      intro n h
      cases rhs with
      | nil => exact nil_prefix
      | cons r rhs =>
        rw [sharedOrders, length_cons] at h
        by_cases heq : l = r
        · rw [if_neg (not_not.2 heq)] at h
          rw [heq]
          exact (prefix_cons_inj r).2 (ih (n + 1) (by omega))
        · rw [if_pos heq] at h
          omega
  exact hloop 0 (by rw [Nat.zero_add]; exact h)

namespace OrderedRows

variable {X V : Type*} [LinearOrder V] {P : OrderedRows X V}

theorem keys_append (n m : List (BoundOrderByNode X)) (row : ℕ) :
    P.keys (n ++ m) row = P.keys n row ++ P.keys m row := map_append

theorem prefixFree_keys (nodes : List (BoundOrderByNode X)) (i j : ℕ) :
    PrefixFree (P.keys nodes i) (P.keys nodes j) :=
  .of_length_eq (by rw [keys, keys, length_map, length_map])

/-- Rows sorted by a list of nodes are sorted by its first ones, and where these agree by the
    others. -/
theorem keys_append_le_iff {n m : List (BoundOrderByNode X)} {i j : ℕ} : P.keys (n ++ m) i ≤ P.keys (n ++ m) j ↔
      P.keys n i < P.keys n j ∨ (P.keys n i = P.keys n j ∧ P.keys m i ≤ P.keys m j) := by
  rw [keys_append, keys_append, ← not_lt, append_lt_append_iff (prefixFree_keys n j i)]
  rcases lt_trichotomy (P.keys n i) (P.keys n j) with h | h | h
  · simp [h, h.not_gt, h.ne']
  · simp [h]
  · simp [h, h.not_gt, h.ne']

/-- A row differs from the one before in the first columns. -/
theorem differsFromPrevious_masked {n m : List (BoundOrderByNode X)}
    (h : P.partitions ++ P.orders = n ++ m) (r : ℕ) :
    P.masked.DiffersFromPrevious n.length r ↔ P.keys n r ≠ P.keys n (r - 1) := by
  have hval : ∀ row, ∀ c < n.length, P.masked.value row c = (P.keys n row)[c]? := by
    intro row c hc
    change (P.keys (P.partitions ++ P.orders) row)[c]? = _
    rw [h, keys_append, getElem?_append_left (by rwa [keys, length_map])]
  rw [MaskedRows.DiffersFromPrevious, ← not_iff_not]
  push Not
  constructor
  · intro heq
    refine ext_getElem? fun c => ?_
    rcases Nat.lt_or_ge c n.length with hc | hc
    · rw [← hval r c hc, ← hval (r - 1) c hc]
      exact heq c hc
    · rw [getElem?_eq_none (by rwa [keys, length_map]), getElem?_eq_none (by rwa [keys, length_map])]
  · intro heq c hc
    rw [hval r c hc, hval (r - 1) c hc, heq]

theorem partitionMask_iff (r : ℕ) : P.group.partitionMask r = true ↔
    r = 0 ∨ P.keys P.partitions r ≠ P.keys P.partitions (r - 1) := by
  rw [← differsFromPrevious_masked rfl]
  exact decide_eq_true_iff

theorem orderMask_iff (r : ℕ) : P.group.orderMask r = true ↔
    r = 0 ∨ P.keys (P.partitions ++ P.orders) r ≠ P.keys (P.partitions ++ P.orders) (r - 1) := by
  rw [← differsFromPrevious_masked (append_nil _).symm, length_append]
  exact decide_eq_true_iff

/-! ## Partitions -/

section Partition

variable {row : ℕ}

theorem partitionBegin_le (row : ℕ) : P.group.partitionBegin row ≤ row := lastStart_le _ _

theorem partitionEnd_spec (hrow : row < P.count) :
    row < P.group.partitionEnd row ∧ P.group.partitionEnd row ≤ P.count ∧
      ∀ s, P.group.partitionBegin row < s → s < P.group.partitionEnd row → P.group.partitionMask s = false := by
  have hle := partitionBegin_le (P := P) row
  obtain ⟨h₁, h₂, h₃, h₄⟩ := findNextStart_spec P.group.partitionMask
    (l := P.group.partitionBegin row + 1) (r := P.count) (by omega)
  refine ⟨?_, h₂, h₃⟩
  by_contra hge
  have hlt : P.group.partitionEnd row < P.count := (not_lt.1 hge).trans_lt hrow
  have := le_lastStart (h₄ hlt) (not_lt.1 hge)
  exact absurd (h₁.trans this) (Nat.not_succ_le_self _)

/-- The rows of a partition have its key. -/
theorem keys_partitions_eq (hrow : row < P.count) {i : ℕ} (h₁ : P.group.partitionBegin row ≤ i)
    (h₂ : i < P.group.partitionEnd row) :
    P.keys P.partitions (P.group.partitionBegin row) = P.keys P.partitions i := by
  refine eq_of_no_start h₁ fun s hs hsi => ?_
  by_contra hne
  have := (partitionMask_iff s).2 (.inr hne)
  rw [(partitionEnd_spec hrow).2.2 s hs (by omega)] at this
  exact absurd this (by decide)

/-- The rows of a partition are sorted by the ordering of the window. -/
theorem keys_orders_le (hrow : row < P.count) (i j : ℕ) (h₁ : P.group.partitionBegin row ≤ i)
    (hij : i ≤ j) (h₂ : j < P.group.partitionEnd row) : P.keys P.orders i ≤ P.keys P.orders j := by
  have hsort := P.sorted i j hij (h₂.trans_le (partitionEnd_spec hrow).2.1)
  rcases keys_append_le_iff.1 hsort with h | h
  · rw [← keys_partitions_eq hrow h₁ (by omega), ← keys_partitions_eq hrow (by omega) h₂] at h
    exact absurd h (lt_irrefl _)
  · exact h.2

/-- In a partition, peers start where the ordering of the window changes. -/
theorem orderMask_iff_of_partition (hrow : row < P.count) (s : ℕ)
    (h₁ : P.group.partitionBegin row < s) (h₂ : s < P.group.partitionEnd row) :
    P.group.orderMask s = true ↔ P.keys P.orders s ≠ P.keys P.orders (s - 1) := by
  rw [orderMask_iff, keys_append, keys_append, ← keys_partitions_eq hrow h₁.le h₂,
    ← keys_partitions_eq hrow (show _ ≤ s - 1 by omega) (by omega)]
  simp only [ne_eq, append_cancel_left_eq]
  exact or_iff_right (by omega)

theorem orderMask_partitionBegin (row : ℕ) : P.group.orderMask (P.group.partitionBegin row) = true :=
  P.group.order_of_partition _ (lastStart_spec P.group.partition_zero row)

section

variable {i : ℕ} (hrow : row < P.count) (h₁ : P.group.partitionBegin row ≤ i) (h₂ : i < P.group.partitionEnd row)

include hrow h₁ h₂

theorem lt_peerBegin_iff :
    i < P.group.peerBegin row ↔ P.keys P.orders i < P.keys P.orders row :=
  lt_lastStart_iff (keys_orders_le hrow) (orderMask_iff_of_partition hrow)
    (orderMask_partitionBegin row) (partitionBegin_le row) (partitionEnd_spec hrow).1 h₁ h₂

theorem lt_peerEnd_iff :
    i < P.group.peerEnd row ↔ P.keys P.orders i ≤ P.keys P.orders row :=
  lt_findNextStart_iff (keys_orders_le hrow) (orderMask_iff_of_partition hrow)
    (orderMask_partitionBegin row) (partitionBegin_le row) (partitionEnd_spec hrow).1 h₁ h₂

end

theorem peerEnd_le (hrow : row < P.count) : P.group.peerEnd row ≤ P.group.partitionEnd row := by
  have hpeerRow : P.group.peerBegin row ≤ row := lastStart_le _ _
  have hrowEnd := (partitionEnd_spec hrow).1
  exact (findNextStart_spec _ (by omega)).2.1

end Partition

/-! ## The shortcut -/

/-- The values without a token tree are those of the token trees, for a row and a frame. -/
structure ShortcutAgrees (P : OrderedRows X V) (tree uniqueTree : MergeSortTree ℕ)
    (row lower upper : ℕ) : Prop where
  rank : framedRank lower (P.group.peerBegin row) = toInt64 (TokenTree.rank tree lower upper row)
  rowNumber : framedRowNumber lower row = toInt64 (TokenTree.rank uniqueTree lower upper row)
  peerEnd : framedPeerEnd upper (P.group.peerEnd row) = TokenTree.peerEnd tree lower upper row

theorem toInt64_inj {n m : ℕ} (hn : n < idxRange) (hm : m < idxRange) : toInt64 n = toInt64 m ↔ n = m := by
  refine ⟨fun h => ?_, fun h => by rw [h]⟩
  have hmod := congrArg (· % (idxRange : ℤ)) h
  simp only [toInt64, Int.bmod_emod] at hmod
  rw [Int.emod_eq_of_lt (by omega) (by omega), Int.emod_eq_of_lt (by omega) (by omega)] at hmod
  exact_mod_cast hmod

theorem idxAdd_of_lt {a b : ℕ} (h : a + b < idxRange) : idxAdd a b = a + b := Nat.mod_eq_of_lt h

theorem sortKey_lt_iff {i j : ℕ} : (P.tokenTree false).sortKey i < (P.tokenTree false).sortKey j ↔
    P.keys P.argOrders i < P.keys P.argOrders j := by
  rw [TokenTree.sortKey, TokenTree.sortKey, Prod.Lex.toLex_lt_toLex]
  simp [tokenTree]

/-- By the unique keys, rows sorted by the argument are counted up to the row. -/
theorem uniqueKey_lt_iff {a b row i : ℕ}
    (hmono : ∀ i j, a ≤ i → i ≤ j → j < b → P.keys P.argOrders i ≤ P.keys P.argOrders j)
    (ha : a ≤ row) (hb : row < b) (hai : a ≤ i) (hib : i < b) :
    (P.tokenTree true).sortKey i < (P.tokenTree true).sortKey row ↔ i < row := by
  rw [TokenTree.sortKey, TokenTree.sortKey, Prod.Lex.toLex_lt_toLex]
  constructor
  · rintro (h | ⟨-, h⟩)
    · by_contra hge
      exact absurd (hmono row i ha (not_lt.1 hge) hib) (not_le.2 h)
    · exact h
  · intro h
    rcases (hmono i row hai h.le hb).lt_or_eq with hlt | heq
    · exact .inl hlt
    · exact .inr ⟨heq, h⟩

section Shortcut

variable {row lower upper rank : ℕ}

/-- The shortcut is right if the frame does not start before the peers, or reaches up to them and no row before them
    has the argument of the row. -/
theorem framedRank_eq_iff {peerBegin argBegin : ℕ} (hlow : lower < idxRange)
    (hpeer : peerBegin + 1 < idxRange) (hrank : rank < idxRange) (harg : argBegin ≤ peerBegin)
    (heq : rank = 1 + (min upper argBegin - lower)) :
    framedRank lower peerBegin = toInt64 rank ↔ peerBegin ≤ lower ∨ (argBegin = peerBegin ∧ peerBegin ≤ upper) := by
  rw [framedRank, idxSub_of_le (le_max_left _ _) (max_lt hlow (by omega)),
    idxAdd_of_lt (by omega), toInt64_inj (by omega) hrank, heq]
  omega

/-- The shortcut gives the number of the row if it is in the frame, or right behind it. -/
theorem framedRowNumber_eq_iff (hlow : lower < idxRange) (hrow : row + 1 < idxRange)
    (hrank : rank < idxRange) (heq : rank = 1 + (min upper row - lower)) :
    framedRowNumber lower row = toInt64 rank ↔ lower ≤ row ∧ (row ≤ upper ∨ row = lower) := by
  rw [framedRowNumber]
  rcases Nat.lt_or_ge row lower with hlt | hge
  · -- The difference wraps around.
    have hsub : idxSub row lower = row + idxRange - lower := by
      rw [idxSub, Nat.mod_eq_of_lt (by omega)]
    rw [hsub, idxAdd, toInt64_inj (Nat.mod_lt _ (by decide)) hrank]
    refine iff_of_false (fun h => ?_) (by omega)
    rcases Nat.lt_or_ge (row + idxRange - lower + 1) idxRange with hs | hs
    · rw [Nat.mod_eq_of_lt hs] at h
      omega
    · rw [show row + idxRange - lower + 1 = idxRange by omega, Nat.mod_self] at h
      omega
  · rw [idxSub_of_le hge (by omega), idxAdd_of_lt (by omega), toInt64_inj (by omega) hrank, heq]
    omega

/-- The shortcut is right if the frame ends within the peers, or does not start behind them and no row behind them has
    the argument of the row. -/
theorem framedPeerEnd_eq_iff {peerEnd argEnd : ℕ} (harg : peerEnd ≤ argEnd) :
    framedPeerEnd upper peerEnd = lower + (min upper argEnd - lower) ↔
      lower ≤ upper ∧ (upper ≤ peerEnd ∨ (lower ≤ peerEnd ∧ argEnd = peerEnd)) := by
  rw [framedPeerEnd]
  omega

/-- The rows of the partition of a row that have its argument are those from `argBegin` to
    `argEnd`. -/
structure ArgPeers (P : OrderedRows X V) (row argBegin argEnd : ℕ) : Prop where
  mono : ∀ i j, P.group.partitionBegin row ≤ i → i ≤ j → j < P.group.partitionEnd row →
    P.keys P.argOrders i ≤ P.keys P.argOrders j
  lt_begin_iff : ∀ i, P.group.partitionBegin row ≤ i → i < P.group.partitionEnd row →
    (P.keys P.argOrders i < P.keys P.argOrders row ↔ i < argBegin)
  lt_end_iff : ∀ i, P.group.partitionBegin row ≤ i → i < P.group.partitionEnd row →
    (P.keys P.argOrders i ≤ P.keys P.argOrders row ↔ i < argEnd)
  begin_le : argBegin ≤ P.group.peerBegin row
  le_end : P.group.peerEnd row ≤ argEnd

/-- The rows with the argument of a row are around its peers, if its ordering is a prefix of that of the window. -/
theorem exists_argPeers {P : OrderedRows X V} (hargs : P.argOrders <+: P.orders)
    (hrow : row < P.count) : ∃ argBegin argEnd, P.ArgPeers row argBegin argEnd := by
  obtain ⟨rest, hrst⟩ := hargs
  obtain ⟨hrowEnd, hend, -⟩ := partitionEnd_spec hrow
  have hbeg := partitionBegin_le (P := P) row
  have hle : ∀ i j, P.keys P.orders i ≤ P.keys P.orders j → P.keys P.argOrders i ≤ P.keys P.argOrders j := by
    intro i j h
    rw [← hrst] at h
    rcases keys_append_le_iff.1 h with h | h
    · exact h.le
    · exact h.1.le
  have hmono : ∀ i j, P.group.partitionBegin row ≤ i → i ≤ j → j < P.group.partitionEnd row →
      P.keys P.argOrders i ≤ P.keys P.argOrders j :=
    fun i j h₁ h₂ h₃ => hle i j (keys_orders_le hrow i j h₁ h₂ h₃)
  obtain ⟨argBegin, hb₁, hb₂, hb⟩ := exists_cut
    (p := fun i => P.keys P.argOrders i < P.keys P.argOrders row) (hbeg.trans hrowEnd.le)
    fun i j h₁ h₂ h₃ h => (hmono i j h₁ h₂ h₃).trans_lt h
  obtain ⟨argEnd, he₁, he₂, he⟩ := exists_cut
    (p := fun i => P.keys P.argOrders i ≤ P.keys P.argOrders row) (hbeg.trans hrowEnd.le)
    fun i j h₁ h₂ h₃ h => (hmono i j h₁ h₂ h₃).trans h
  refine ⟨argBegin, argEnd, hmono, hb, he, ?_, ?_⟩
  · by_contra hlt
    have hpart := P.group.partitionBegin_le_peerBegin row
    have hkey := (hb _ hpart (by omega)).2 (not_le.1 hlt)
    have hpeer := (lt_peerBegin_iff hrow hpart (by omega)).not.1 (lt_irrefl _)
    exact absurd (hle _ _ (not_lt.1 hpeer)) (not_le.2 hkey)
  · by_contra hlt
    have hpeerPart := peerEnd_le hrow
    have hpeer := (lt_peerEnd_iff hrow he₁ (by omega)).1 (not_le.1 hlt)
    exact absurd ((he argEnd he₁ (by omega)).1 (hle _ _ hpeer)) (lt_irrefl _)

/-- The rows of a frame with the argument of the row are its peers, in terms of positions. -/
theorem ArgPeers.peers_iff {P : OrderedRows X V} {argBegin argEnd : ℕ}
    (h : P.ArgPeers row argBegin argEnd) (hrow : row < P.count)
    (hlow : P.group.partitionBegin row ≤ lower) (hup : upper ≤ P.group.partitionEnd row) :
    (∀ i, lower ≤ i → i < upper → P.keys P.argOrders i = P.keys P.argOrders row →
        P.keys P.orders i = P.keys P.orders row) ↔
      ∀ i, lower ≤ i → i < upper → argBegin ≤ i → i < argEnd →
        P.group.peerBegin row ≤ i ∧ i < P.group.peerEnd row := by
  refine forall₃_congr fun i h₁ h₂ => ?_
  have hi : P.group.partitionBegin row ≤ i := hlow.trans h₁
  have hi' : i < P.group.partitionEnd row := h₂.trans_le hup
  rw [← not_lt (b := argBegin), ← not_lt (b := P.group.peerBegin row), ← h.lt_begin_iff i hi hi',
    ← h.lt_end_iff i hi hi', lt_peerBegin_iff hrow hi hi', lt_peerEnd_iff hrow hi hi']
  constructor
  · intro heq hge hle
    rw [heq (le_antisymm hle (not_lt.1 hge))]
    exact ⟨lt_irrefl _, le_rfl⟩
  · intro hpeer heq
    obtain ⟨h₃, h₄⟩ := hpeer (heq ▸ lt_irrefl _) heq.le
    exact le_antisymm h₄ (not_lt.1 h₃)

/-- Both ranks in frames agree if and only if the row is in the frame or right behind it, and the rows of the frame
    with the argument of the row are its peers. -/
theorem shortcut_agrees_iff [DecidableEq X] (P : OrderedRows X V)
    (hshared : getSharedOrders P.orders P.argOrders = P.argOrders.length)
    {rows uniqueRows : List ℕ} {writes uniqueWrites : List (ℕ × ℕ)}
    (htree : (P.tokenTree false).Wrote rows writes)
    (hunique : (P.tokenTree true).Wrote uniqueRows uniqueWrites) (hrow : row < P.count)
    (hlower : P.group.partitionBegin row ≤ lower) (hlower' : lower ≤ P.group.partitionEnd row)
    (hupper : upper ≤ P.group.partitionEnd row) :
    P.ShortcutAgrees ((P.tokenTree false).build rows writes)
        ((P.tokenTree true).build uniqueRows uniqueWrites) row lower upper ↔
      lower ≤ row ∧ row ≤ upper ∧ ∀ i, lower ≤ i → i < upper → P.keys P.argOrders i = P.keys P.argOrders row →
          P.keys P.orders i = P.keys P.orders row := by
  obtain ⟨argBegin, argEnd, harg⟩ := exists_argPeers (isPrefix_of_getSharedOrders hshared) hrow
  have hcnt : P.count < idxRange := P.count_lt
  obtain ⟨hrowEnd, hend, -⟩ := partitionEnd_spec hrow
  have hbeg := partitionBegin_le (P := P) row
  have hpeerRow : P.group.peerBegin row ≤ row := lastStart_le _ _
  have hrowPeer : row < P.group.peerEnd row := (lt_peerEnd_iff hrow hbeg hrowEnd).2 le_rfl
  have hrank : TokenTree.rank ((P.tokenTree false).build rows writes) lower upper row =
      1 + (min upper argBegin - lower) := by
    rw [htree.rank_eq hrow (hupper.trans hend), frameCount_of_cut]
    intro i h₁ h₂
    rw [sortKey_lt_iff]
    exact harg.lt_begin_iff i (by omega) (by omega)
  have hnumber : TokenTree.rank ((P.tokenTree true).build uniqueRows uniqueWrites) lower upper row =
      1 + (min upper row - lower) := by
    rw [hunique.rank_eq hrow (hupper.trans hend), frameCount_of_cut]
    intro i h₁ h₂
    exact uniqueKey_lt_iff harg.mono hbeg hrowEnd (by omega) (by omega)
  have hpeerEnd : TokenTree.peerEnd ((P.tokenTree false).build rows writes) lower upper row =
      lower + (min upper argEnd - lower) := by
    rw [htree.peerEnd_eq hrow (hupper.trans hend), frameCount_of_cut]
    intro i h₁ h₂
    rw [← not_lt, sortKey_lt_iff, not_lt]
    exact harg.lt_end_iff i (by omega) (by omega)
  have hagrees : P.ShortcutAgrees ((P.tokenTree false).build rows writes)
      ((P.tokenTree true).build uniqueRows uniqueWrites) row lower upper ↔
      (P.group.peerBegin row ≤ lower ∨ (argBegin = P.group.peerBegin row ∧
        P.group.peerBegin row ≤ upper)) ∧ (lower ≤ row ∧ (row ≤ upper ∨ row = lower)) ∧
      (lower ≤ upper ∧ (upper ≤ P.group.peerEnd row ∨ (lower ≤ P.group.peerEnd row ∧
        argEnd = P.group.peerEnd row))) := by
    have hrankLt : 1 + (min upper argBegin - lower) < idxRange := by
      have := harg.begin_le
      omega
    have hnumberLt : 1 + (min upper row - lower) < idxRange := by omega
    rw [← framedRank_eq_iff (by omega) (by omega) (hrank ▸ hrankLt) harg.begin_le hrank,
      ← framedRowNumber_eq_iff (by omega) (by omega) (hnumber ▸ hnumberLt) hnumber,
      ← framedPeerEnd_eq_iff harg.le_end, ← hpeerEnd]
    exact ⟨fun h => ⟨h.rank, h.rowNumber, h.peerEnd⟩, fun h => ⟨h.1, h.2.1, h.2.2⟩⟩
  rw [hagrees, harg.peers_iff hrow hlower hupper]
  have hb := harg.begin_le
  have he := harg.le_end
  constructor
  · rintro ⟨h₁, h₂, h₃⟩
    exact ⟨h₂.1, by omega, fun i h₄ h₅ h₆ h₇ => by omega⟩
  · rintro ⟨h₁, h₂, h₃⟩
    -- The rows right before and right behind the peers decide.
    have hbef := h₃ (P.group.peerBegin row - 1)
    have hbhd := h₃ (P.group.peerEnd row)
    omega

end Shortcut

theorem twoOrders_pos : ∀ n ∈ [2], 1 ≤ n := by decide

/-- Two rows that differ in the second expression only. The window is ordered by both, the argument by the first. -/
def twoOrders : OrderedRows ℕ ℕ where
  chunks := [2]
  chunks_pos := twoOrders_pos
  partitions := []
  orders := [⟨.ascending, .nullsLast, 0⟩, ⟨.ascending, .nullsLast, 1⟩]
  argOrders := [⟨.ascending, .nullsLast, 0⟩]
  sortValue node row := if node.expression = 0 then 0 else row
  chunks_le := by decide
  count_lt := by decide
  sorted i j hij hj := by
    have hj : j < 2 := hj
    interval_cases j <;> interval_cases i <;> decide

/-- The deltas of the two rows, by one task. -/
def twoOrdersWrites (unique : Bool) : List (ℕ × ℕ) :=
  (range 1).flatMap ((twoOrders.tokenTree unique).buildLeaves [0, 1] ⟨[2], twoOrders_pos⟩ 1)

theorem twoOrders_wrote (unique : Bool) : (twoOrders.tokenTree unique).Wrote [0, 1] (twoOrdersWrites unique) := by
  refine ⟨⟨.refl _, pairwise_pair.2 ?_⟩, ⟨[2], by decide⟩, 1, rfl, by decide, .refl _⟩
  cases unique <;> decide

/-- The frame of the first row only. -/
theorem shortcut_agrees_first_row :
    twoOrders.ShortcutAgrees ((twoOrders.tokenTree false).build [0, 1] (twoOrdersWrites false))
      ((twoOrders.tokenTree true).build [0, 1] (twoOrdersWrites true)) 0 0 1 := by
  refine (shortcut_agrees_iff twoOrders rfl (twoOrders_wrote false) (twoOrders_wrote true)
    (by decide) (by decide) (by decide) (by decide)).2 ⟨le_rfl, by decide, fun i _ hi _ => ?_⟩
  rw [Nat.lt_one_iff.1 hi]

/-- The second row has no smaller value of the first expression before it, but its peers start behind the first row. -/
theorem shortcut_differs_by_prefix :
    getSharedOrders twoOrders.orders twoOrders.argOrders = twoOrders.argOrders.length ∧
      (twoOrders.tokenTree false).Wrote [0, 1] (twoOrdersWrites false) ∧
      (twoOrders.tokenTree true).Wrote [0, 1] (twoOrdersWrites true) ∧
      twoOrders.group.partitionBegin 1 = 0 ∧ twoOrders.group.partitionEnd 1 = 2 ∧
      framedRank 0 (twoOrders.group.peerBegin 1) = 2 ∧
      TokenTree.rank ((twoOrders.tokenTree false).build [0, 1] (twoOrdersWrites false)) 0 2 1 = 1 ∧
      ¬twoOrders.ShortcutAgrees
        ((twoOrders.tokenTree false).build [0, 1] (twoOrdersWrites false))
        ((twoOrders.tokenTree true).build [0, 1] (twoOrdersWrites true)) 1 0 2 := by
  have hrank : framedRank 0 (twoOrders.group.peerBegin 1) = 2 := by decide
  have htree : TokenTree.rank ((twoOrders.tokenTree false).build [0, 1] (twoOrdersWrites false))
      0 2 1 = 1 := by
    rw [(twoOrders_wrote false).rank_eq (by decide) (by decide), frameCount_of_cut (c := 0)]
    · rfl
    · intro i _ hi
      interval_cases i <;> decide
  refine ⟨rfl, twoOrders_wrote false, twoOrders_wrote true, by decide, by decide, hrank, htree, fun h => ?_⟩
  have := h.rank
  rw [hrank, htree] at this
  exact absurd this (by decide)

end OrderedRows

end WfOpt

import WfOpt.Index.ArtScan

/-!
# Searches in an adaptive radix tree

A search returns the row ids of all keys within its bounds, unless there are more than it may return.
It needs bounds that are prefix-free with the keys of the tree.
-/

namespace WfOpt

open List Finset
open Bool (false_ne_true)

namespace Art

variable {layout : Layout} {sizes : Sizes} {maxCount : ℕ} {rowIds : Finset RowId}

/-! ## Collecting row ids -/

/-- Whether a key is to be visited: it is less than the upper bound, or equal to it. -/
def BelowBound (bound : List UInt8) (equal : Bool) (key : List UInt8) : Prop :=
  key < bound ∨ equal = true ∧ key = bound

instance (bound : List UInt8) (equal : Bool) (key : List UInt8) : Decidable (BelowBound bound equal key) :=
  inferInstanceAs (Decidable (_ ∨ _))

/-- The row ids of a visited leaf. -/
def visitRows (v : Position × Node) : List RowId := gateRows v.2 v.1.rowPath

/-- A scan stops as soon as there are too many row ids, and otherwise adds them all. -/
def Collects (maxCount : ℕ) (rowIds : Finset RowId) (rows : List RowId)
    (result : Option (Bool × Finset RowId)) : Prop :=
  ∃ found out, result = some (found, out) ∧ (found = true ↔ rowIds.card + rows.length ≤ maxCount) ∧
    (found = true → out = rowIds ∪ rows.toFinset)

/-- Row ids that are no duplicates of those that there are already. -/
theorem card_union_of_fresh {rows : List RowId} (hnd : rows.Nodup) (hfr : ∀ rowId ∈ rows, rowId ∉ rowIds) :
    (rowIds ∪ rows.toFinset).card = rowIds.card + rows.length := by
  rw [card_union_of_disjoint, toFinset_card_of_nodup hnd]
  refine disjoint_left.2 fun rowId hmem hrow => ?_
  exact hfr rowId (mem_toFinset.1 hrow) hmem

namespace Iterator

theorem scanBytes_spec {path rowId : List UInt8} (hpath : path <+: rowId)
    (hlen : path.length = rowIdCount) (hrowId : rowId.length = 8) {bytes : List UInt8}
    (hnd : (bytes.map fun byte => getRowId (path ++ [byte])).Nodup)
    (hfr : ∀ byte ∈ bytes, getRowId (path ++ [byte]) ∉ rowIds) (hcard : rowIds.card ≤ maxCount) :
    Collects maxCount rowIds (bytes.map fun byte => getRowId (path ++ [byte]))
      (some (scanBytes maxCount rowId bytes rowIds)) := by
  have hset : ∀ byte, rowId.set 7 byte = path ++ [byte] := by
    intro byte
    have hpre := append_prefix_set hpath (by rw [hlen, hrowId]; decide) byte
    rw [hlen] at hpre
    refine (hpre.eq_of_length ?_).symm
    rw [length_append, length_set, hlen, hrowId]
    rfl
  induction bytes generalizing rowIds with
  | nil => exact ⟨true, rowIds, rfl, iff_of_true rfl hcard, fun _ => by simp⟩
  | cons byte bytes ih =>
    obtain ⟨hby, hnd⟩ := nodup_cons.1 hnd
    rw [scanBytes]
    by_cases hmax : rowIds.card + 1 > maxCount
    · rw [if_pos hmax]
      refine ⟨false, rowIds, rfl, iff_of_false false_ne_true ?_, fun h => absurd h false_ne_true⟩
      rw [List.map_cons, length_cons]
      omega
    · rw [if_neg hmax, hset]
      have hnew : getRowId (path ++ [byte]) ∉ rowIds := hfr byte List.mem_cons_self
      have hcard' := card_insert_of_notMem hnew
      obtain ⟨found, out, heq, hfnd, hout⟩ := @ih (Insert.insert (getRowId (path ++ [byte])) rowIds) hnd
        (fun b hb hmem => by
          rcases mem_insert.1 hmem with h | h
          · have hmem := List.mem_map_of_mem (f := fun byte => getRowId (path ++ [byte])) hb
            rw [h] at hmem
            exact hby hmem
          · exact hfr b (List.mem_cons_of_mem _ hb) h)
        (by omega)
      refine ⟨found, out, heq, hfnd.trans ?_, fun h => ?_⟩
      · rw [hcard', List.map_cons, length_cons]
        omega
      · rw [hout h, List.map_cons, toFinset_cons, insert_union, union_insert]

/-- A leaf that can be visited: an inlined row id, or a node with the last bytes of row ids. -/
def IsVisit (v : Position × Node) : Prop :=
  v.2.isInlined ∨ ∃ gate type bytes, v.2 = .leafNode gate type bytes ∧ v.1.rowPath.length = rowIdCount

variable {vs : List (Position × Node)}

theorem scanLeaf_spec {it : Iterator} {v : Position × Node}
    (h : Visiting layout sizes it v vs) (hlf : IsVisit v)
    (hnd : (visitRows v).Nodup) (hfr : ∀ rowId ∈ visitRows v, rowId ∉ rowIds)
    (hcard : rowIds.card ≤ maxCount) :
    Collects maxCount rowIds (visitRows v) (it.scanLeaf maxCount rowIds) := by
  obtain ⟨p, leaf⟩ := v
  rcases hlf with hlf | ⟨gate, type, bytes, hlf, hlen⟩
  · cases leaf with
    | inlined rowId =>
      rw [scanLeaf, h.lastLeaf]
      dsimp only
      have hrs : visitRows (p, .inlined rowId) = [rowId] := rfl
      rw [hrs]
      by_cases hmax : rowIds.card + 1 > maxCount
      · rw [if_pos hmax]
        exact ⟨false, rowIds, rfl, iff_of_false false_ne_true (not_le.2 hmax), fun h => absurd h false_ne_true⟩
      · rw [if_neg hmax]
        exact ⟨true, _, rfl, iff_of_true rfl (not_lt.1 hmax), fun _ => by simp⟩
    | empty | prefixNode gate data child | inner gate type keys children
    | leafNode gate type bytes => exact absurd hlf false_ne_true
  · have hlf' : leaf = .leafNode gate type bytes := hlf
    subst hlf'
    rw [scanLeaf, h.lastLeaf]
    exact scanBytes_spec h.at_.rowId hlen h.at_.rowId_length hnd
      (fun byte hby => hfr _ (mem_map_of_mem hby)) hcard

/-- Compared with a bound that is no prefix of it, and the other way round, only the bytes of the key matter. -/
theorem greaterBytes_append {key bound : List UInt8} (hfree : PrefixFree key bound) (path : List UInt8) :
    greaterBytes (key ++ path) bound =
      if bound < key then some true else if key < bound then some false else none := by
  induction key generalizing bound with
  | nil =>
    obtain rfl : [] = bound := hfree.1 nil_prefix
    cases path <;> rfl
  | cons x key ih =>
    cases bound with
    | nil => exact absurd (hfree.2 nil_prefix) (cons_ne_nil _ _)
    | cons y bound =>
      rw [cons_append, greaterBytes]
      rcases lt_trichotomy x y with hlt | rfl | hgt
      · rw [if_neg (lt_asymm hlt), if_pos hlt, if_neg (lt_asymm (cons_lt_cons_iff.2 (.inl hlt))),
          if_pos (cons_lt_cons_iff.2 (.inl hlt))]
      · rw [if_neg (lt_irrefl _), if_neg (lt_irrefl _), ih hfree.tail]
        simp only [cons_lt_cons_iff, lt_irrefl, false_or, true_and]
      · rw [if_pos hgt, if_pos (cons_lt_cons_iff.2 (.inl hgt))]

theorem greaterThan_spec {it : Iterator} {p : Position} (h : it.At p) {bound : List UInt8}
    (hfree : PrefixFree p.key bound) (equal : Bool) :
    it.greaterThan bound equal = true ↔ ¬ BelowBound bound equal p.key := by
  have hlen : it.currentKey.length - it.nestedDepth = p.key.length := by
    rw [h.currentKey, h.nestedDepth, Position.path, length_append, Nat.add_sub_cancel]
  rw [greaterThan, hlen, h.currentKey, Position.path, greaterBytes_append hfree, BelowBound]
  rcases lt_trichotomy p.key bound with hlt | heq | hgt
  · rw [if_neg (lt_asymm hlt), if_pos hlt]
    simp [hlt]
  · rw [heq, if_neg (lt_irrefl _), if_neg (lt_irrefl _)]
    cases equal <;> simp
  · rw [if_pos hgt]
    simp [lt_asymm hgt, hgt.ne']

section

variable (bound : List UInt8) (equal : Bool)

/-- Whether a scan goes on at a leaf. -/
def GoesOn (v : Position × Node) : Prop := bound = [] ∨ BelowBound bound equal v.1.key

instance : DecidablePred (GoesOn bound equal) := fun _ => inferInstanceAs (Decidable (_ ∨ _))

end

/-- What a leaf adds, and what is behind it. -/
theorem Collects.append {rowIds out : Finset RowId} {rows rows' : List RowId}
    {result : Option (Bool × Finset RowId)} (hout : out = rowIds ∪ rows.toFinset)
    (hcard : out.card = rowIds.card + rows.length) (h : Collects maxCount out rows' result) :
    Collects maxCount rowIds (rows ++ rows') result := by
  obtain ⟨found, out', heq, hfnd, hout'⟩ := h
  refine ⟨found, out', heq, hfnd.trans ?_, fun h => ?_⟩
  · rw [hcard, length_append, Nat.add_assoc]
  · rw [hout' h, hout, toFinset_append, union_assoc]

/-- `Scan` collects the row ids of all leaves up to the first one that is above the bound. -/
theorem scan_spec {bound : List UInt8} {equal : Bool} {maxCount fuel : ℕ} {it : Iterator} {v : Position × Node}
    (h : Visiting layout sizes it v vs) (hlf : ∀ w ∈ v :: vs, IsVisit w)
    (hfree : bound ≠ [] → ∀ w ∈ v :: vs, PrefixFree w.1.key bound)
    (hskip : it.enteredNestedLeaf = true ∨ v.1.nested = none ∨ GoesOn bound equal v)
    (hnd : ((v :: vs).flatMap visitRows).Nodup)
    (hfr : ∀ rowId ∈ (v :: vs).flatMap visitRows, rowId ∉ rowIds) (hcard : rowIds.card ≤ maxCount)
    (hfuel : (v :: vs).length ≤ fuel) :
    Collects maxCount rowIds (((v :: vs).takeWhile (GoesOn bound equal ·)).flatMap visitRows)
      (scan bound maxCount equal fuel it rowIds) := by
  induction fuel generalizing v vs it rowIds with
  | zero => exact absurd hfuel (Nat.not_succ_le_zero _)
  | succ fuel ih =>
    rw [scan]
    by_cases hgo : GoesOn bound equal v
    · have hgr : ¬ (bound ≠ [] ∧ (it.status = false ∨ it.enteredNestedLeaf) ∧ it.greaterThan bound equal) := by
        rintro ⟨hne, -, hgr⟩
        exact (greaterThan_spec h.at_ (hfree hne v mem_cons_self) equal).1 hgr (hgo.resolve_left hne)
      rw [if_neg hgr, takeWhile_cons_of_pos (by simpa using hgo), flatMap_cons]
      obtain ⟨hnd₁, hnd₂, hdisj⟩ := nodup_append'.1 hnd
      obtain ⟨found, out, heq, hfnd, hout⟩ := scanLeaf_spec h (hlf v mem_cons_self) hnd₁
        (fun rowId hmem => hfr rowId (mem_append_left _ hmem)) hcard
      rw [heq]
      cases found with
      | false =>
        refine ⟨false, out, rfl, iff_of_false false_ne_true fun hle => ?_, fun h => absurd h false_ne_true⟩
        rw [length_append] at hle
        exact absurd (hfnd.2 (by omega)) false_ne_true
      | true =>
        have hcard' : out.card = rowIds.card + (visitRows v).length := by
          rw [hout rfl]
          exact card_union_of_fresh hnd₁ fun rowId hmem => hfr rowId (mem_append_left _ hmem)
        refine Collects.append (hout rfl) hcard' ?_
        have hle : out.card ≤ maxCount := hcard' ▸ hfnd.1 rfl
        have hat : ({ it with enteredNestedLeaf := false } : Iterator).At v.1 :=
          ⟨h.at_.1, h.at_.2, h.at_.3, h.at_.4, h.at_.5⟩
        have hnx := nextFrom_spec h.stack hat
        cases vs with
        | nil =>
          obtain ⟨it', hnx⟩ := hnx
          rw [next, hnx]
          exact ⟨true, out, rfl, iff_of_true rfl hle, fun _ => by simp⟩
        | cons w vs =>
          obtain ⟨it', hnx, hvis, hentd⟩ := hnx
          rw [next, hnx]
          refine ih hvis (fun u hu => hlf u (mem_cons_of_mem _ hu))
            (fun hne u hu => hfree hne u (mem_cons_of_mem _ hu)) ?_ hnd₂ ?_ hle
            (Nat.le_of_succ_le_succ hfuel)
          · -- In a gate, the leaves have the same key.
            refine hentd.imp_right (Or.imp_right ?_)
            rintro ⟨-, hkey⟩
            rwa [GoesOn, hkey]
          · intro rowId hmem hout'
            rw [hout rfl] at hout'
            rcases mem_union.1 hout' with h | h
            · exact hfr rowId (mem_append_right _ hmem) h
            · exact hdisj (mem_toFinset.1 h) hmem
    · obtain ⟨hne, hbelow⟩ := not_or.1 hgo
      have hstat : it.status = false ∨ it.enteredNestedLeaf = true := by
        rcases hskip with h' | h' | h'
        · exact .inr h'
        · rw [h.at_.status, h']
          exact .inl rfl
        · exact absurd h' hgo
      rw [if_pos ⟨hne, hstat, (greaterThan_spec h.at_ (hfree hne v mem_cons_self) equal).2 hbelow⟩,
        takeWhile_cons_of_neg (by simpa using hgo)]
      exact ⟨true, rowIds, rfl, iff_of_true rfl hcard, fun _ => by simp⟩

theorem scanFrom_spec (bound : List UInt8) (equal : Bool) (maxCount : ℕ) {fuel : ℕ}
    {result : Option (Bool × Iterator)} {p : Position}
    (h : Moves layout sizes result p vs) (hp : p.nested = none) (hlf : ∀ w ∈ vs, IsVisit w)
    (hfree : bound ≠ [] → ∀ w ∈ vs, PrefixFree w.1.key bound) (hnd : (vs.flatMap visitRows).Nodup)
    (hfuel : vs.length ≤ fuel) :
    Collects maxCount ∅ ((vs.takeWhile (GoesOn bound equal ·)).flatMap visitRows)
      (scanFrom bound maxCount equal fuel ∅ result) := by
  cases vs with
  | nil =>
    obtain ⟨it', heq⟩ := h
    rw [heq]
    exact ⟨true, ∅, rfl, iff_of_true rfl (Nat.zero_le _), fun _ => by simp⟩
  | cons v vs =>
    obtain ⟨it', heq, hvis, hentd⟩ := h
    rw [heq]
    refine scan_spec hvis hlf hfree ?_ hnd (fun rowId _ => notMem_empty rowId)
      (Nat.zero_le _) hfuel
    refine hentd.imp_right (Or.imp_right ?_)
    rintro ⟨hnest, -⟩
    rw [hp] at hnest
    exact absurd hnest false_ne_true

theorem new_at : new.At ⟨[], none⟩ := ⟨rfl, rfl, rfl, rfl, nil_prefix⟩

end Iterator

/-! ## The leaves of a tree and their row ids -/

theorem length_visits (node : Node) (p : Position) : (visits node p).length = leafCount node := by
  induction node generalizing p with
  | empty => rfl
  | inlined rowId => rfl
  | leafNode gate type bytes => rfl
  | prefixNode gate data child ih => exact ih _
  | inner gate type keys children ih =>
    rw [visits, leafCount, length_flatMap]
    simp only [ih]

theorem isVisit_of_mem_visits {node : Node} {p : Position} (h : FitsAt layout sizes node p)
    {v : Position × Node} (hv : v ∈ visits node p) : Iterator.IsVisit v := by
  induction node generalizing p with
  | empty => exact absurd hv not_mem_nil
  | inlined rowId =>
    rw [List.mem_singleton.1 hv]
    exact .inl rfl
  | leafNode gate type bytes =>
    rw [List.mem_singleton.1 hv]
    obtain ⟨path, hnest, hlen⟩ := h.leafNode
    exact .inr ⟨gate, type, bytes, rfl, by rw [Position.rowPath, hnest]; exact hlen⟩
  | prefixNode gate data child ih => exact ih h.prefixNode.2 hv
  | inner gate type keys children ih =>
    obtain ⟨byte, hby, hv⟩ := mem_flatMap.1 hv
    exact ih byte (h.inner.2.2 byte hby) hv

theorem flatMap_visitRows_nested {node : Node} {key path : List UInt8} (h : InGate layout sizes node false path) :
    (visits node ⟨key, some path⟩).flatMap visitRows = gateRows node path := by
  induction node generalizing path with
  | empty => rfl
  | inlined rowId => rfl
  | leafNode gate type bytes => exact flatMap_singleton _ _
  | prefixNode gate data child ih =>
    obtain rfl : gate = false := h.1
    exact ih h.2.2.2.2.2
  | inner gate type keys children ih =>
    obtain rfl : gate = false := h.1
    rw [visits, gateRows, flatMap_assoc]
    exact flatMap_congr fun byte hby => ih byte (h.2.2.2 byte hby)

/-- The row ids behind a key. -/
theorem flatMap_visitRows_leaf {leaf : Node} (h : leaf.isInlined ∨ leaf.gate ∧ GateShape layout sizes leaf)
    (key : List UInt8) : (visits leaf ⟨key, none⟩).flatMap visitRows = gateRows leaf [] := by
  cases leaf with
  | empty => rfl
  | inlined rowId => rfl
  | leafNode gate type bytes => exact flatMap_singleton _ _
  | prefixNode gate data child =>
    rcases h with h | ⟨rfl, h, -⟩
    · exact absurd h false_ne_true
    · exact flatMap_visitRows_nested h.2.2.2.2.2
  | inner gate type keys children =>
    rcases h with h | ⟨rfl, h, -⟩
    · exact absurd h false_ne_true
    · rw [visits, gateRows, flatMap_assoc]
      exact flatMap_congr fun byte hby => flatMap_visitRows_nested (h.2.2.2 byte hby)

/-- The row ids of all keys with a property. -/
def rowsWhere (tree : Node) (P : List UInt8 → Prop) [DecidablePred P] : List RowId :=
  ((entries tree).filter fun e => P e.1).flatMap Prod.snd

theorem flatMap_filter {α β : Type*} (l : List α) (Q : α → Bool) (f : α → List β) :
    (l.filter Q).flatMap f = l.flatMap fun x => if Q x then f x else [] := by
  induction l with
  | nil => rfl
  | cons x l ih =>
    rw [flatMap_cons]
    by_cases hx : Q x
    · rw [filter_cons_of_pos hx, flatMap_cons, ih, if_pos hx]
    · rw [filter_cons_of_neg hx, ih, if_neg hx, nil_append]

theorem rowsWhere_eq (tree : Node) (P : List UInt8 → Prop) [DecidablePred P] :
    rowsWhere tree P = (leaves tree).flatMap fun leaf => if P leaf.1 then gateRows leaf.2 [] else [] := by
  rw [rowsWhere, entries, flatMap_filter, flatMap_map]
  simp only [decide_eq_true_eq]

variable {tree : Node}

theorem flatMap_visitRows_filter (h : Outside layout sizes tree) (P : List UInt8 → Prop) [DecidablePred P] :
    ((visits tree ⟨[], none⟩).filter fun v => P v.1.key).flatMap visitRows = rowsWhere tree P := by
  rw [rowsWhere_eq, visits_eq_flatMap h, filter_flatMap, flatMap_assoc]
  refine flatMap_congr fun leaf hlf => ?_
  have hkind := isInlined_or_gate_of_mem_leaves h hlf
  have hkey : ∀ v ∈ visits leaf.2 ⟨[] ++ leaf.1, none⟩, v.1.key = leaf.1 :=
    fun v hv => key_of_mem_visits_leaf (hkind.imp_right And.left) hv
  by_cases hP : P leaf.1
  · rw [if_pos hP, List.filter_eq_self.2 fun v hv => decide_eq_true ((hkey v hv).symm ▸ hP)]
    exact flatMap_visitRows_leaf hkind _
  · rw [if_neg hP, filter_eq_nil_iff.2 fun v hv => by simpa [hkey v hv] using hP]
    rfl

/-- The keys of the visited leaves ascend. -/
theorem pairwise_visits (h : Outside layout sizes tree) :
    (visits tree ⟨[], none⟩).Pairwise fun v w => v.1.key ≤ w.1.key := by
  have hkey : ∀ leaf ∈ leaves tree, ∀ v ∈ visits leaf.2 ⟨[] ++ leaf.1, none⟩, v.1.key = leaf.1 :=
    fun leaf hlf v hv =>
      key_of_mem_visits_leaf ((isInlined_or_gate_of_mem_leaves h hlf).imp_right And.left) hv
  rw [visits_eq_flatMap h, pairwise_flatMap]
  refine ⟨fun leaf hlf => ?_, ?_⟩
  · refine pairwise_of_forall_mem_list fun v hv w hw => ?_
    rw [hkey leaf hlf v hv, hkey leaf hlf w hw]
  · refine (pairwise_leaves h).imp_of_mem fun hlf hlf' hlt v hv w hw => ?_
    rw [hkey _ hlf v hv, hkey _ hlf' w hw]
    exact hlt.1.le

/-- What holds of no element behind one that it does not hold of holds of the first ones. -/
theorem takeWhile_eq_filter {α : Type*} {R : α → α → Prop} {Q : α → Bool} {l : List α} (h : l.Pairwise R)
    (hQ : ∀ x y, R x y → Q y → Q x) : l.takeWhile Q = l.filter Q := by
  induction l with
  | nil => rfl
  | cons x l ih =>
    obtain ⟨hx, h⟩ := pairwise_cons.1 h
    by_cases hQx : Q x
    · rw [takeWhile_cons_of_pos hQx, filter_cons_of_pos hQx, ih h]
    · rw [takeWhile_cons_of_neg hQx, filter_cons_of_neg hQx]
      refine (filter_eq_nil_iff.2 fun y hy hQy => hQx ?_).symm
      exact hQ x y (hx y hy) hQy

/-! ## Point lookups -/

/-- `Lookup` finds what is behind a key, if the key is in the tree. -/
theorem lookup_spec {bound : List UInt8} {node : Node} {key : List UInt8} (h : Outside layout sizes node)
    (hkey : key <+: bound) (hfree : ∀ leaf ∈ leaves node, PrefixFree (key ++ leaf.1) bound) :
    (∃ leaf ∈ leaves node, key ++ leaf.1 = bound ∧ lookup bound node key.length = some (some leaf.2)) ∨
    ((∀ leaf ∈ leaves node, key ++ leaf.1 ≠ bound) ∧ lookup bound node key.length = some none) := by
  induction node generalizing key with
  | empty | leafNode gate type bytes => exact absurd h not_false
  | inlined rowId =>
    obtain rfl : key = bound := Iterator.eq_of_leaf hkey hfree
    exact .inl ⟨_, List.mem_singleton_self _, append_nil _, rfl⟩
  | prefixNode gate data child ih =>
    cases gate with
    | true =>
      obtain rfl : key = bound := Iterator.eq_of_leaf hkey hfree
      exact .inl ⟨_, List.mem_singleton_self _, append_nil _, rfl⟩
    | false =>
      have hch : Outside layout sizes child := h.2.2.2
      have hmem : ∀ leaf ∈ leaves child, (data ++ leaf.1, leaf.2) ∈ leaves (.prefixNode false data child) :=
        fun leaf hlf => List.mem_map_of_mem (f := fun leaf => (data ++ leaf.1, leaf.2)) hlf
      rw [lookup, if_neg Bool.false_ne_true]
      obtain ⟨rest, rfl⟩ := hkey
      rcases comparePrefix_cases (key ++ rest) data key.length with ⟨rest', hrst, hcmp⟩ |
        ⟨common, byte, keyByte, bytes, rest', hdata, hrst, hne, hcmp⟩ | ⟨bytes, hbs, hdata, hcmp⟩
      · rw [drop_left] at hrst
        subst hrst
        rw [hcmp, ← length_append]
        rcases ih hch ⟨rest', append_assoc _ _ _⟩ (fun leaf hlf => by
            rw [append_assoc]
            exact hfree _ (hmem leaf hlf)) with ⟨leaf, hlf, heq, hlook⟩ | ⟨hno, hlook⟩
        · exact .inl ⟨_, hmem leaf hlf, by rw [← append_assoc, heq], hlook⟩
        · refine .inr ⟨fun leaf hlf => ?_, hlook⟩
          obtain ⟨leaf', hlf', rfl⟩ := List.mem_map.1 hlf
          rw [← append_assoc]
          exact hno leaf' hlf'
      · rw [drop_left] at hrst
        rw [hcmp]
        refine .inr ⟨fun leaf hlf heq => ?_, rfl⟩
        obtain ⟨leaf, -, rfl⟩ := List.mem_map.1 hlf
        rw [hdata, hrst, append_assoc common, append_cancel_left_eq, append_cancel_left_eq] at heq
        exact hne (List.cons.inj heq).1
      · rw [drop_left] at hdata
        exact absurd hdata (Iterator.ne_of_prefixNode hch hfree hbs)
  | inner gate type keys children ih =>
    cases gate with
    | true =>
      obtain rfl : key = bound := Iterator.eq_of_leaf hkey hfree
      exact .inl ⟨_, List.mem_singleton_self _, append_nil _, by rw [lookup, if_pos rfl]⟩
    | false =>
      rw [lookup, if_neg Bool.false_ne_true]
      obtain ⟨rest, rfl⟩ := hkey
      obtain ⟨keyByte, rest, rfl⟩ := exists_cons_of_ne_nil (Iterator.ne_nil_of_inner h hfree)
      have hkeyByte : (key ++ keyByte :: rest)[key.length]? = some keyByte := by simp
      rw [hkeyByte]
      dsimp only
      by_cases hby : keyByte ∈ keys
      · have hmem : ∀ leaf ∈ leaves (children keyByte),
            (keyByte :: leaf.1, leaf.2) ∈ leaves (.inner false type keys children) := by
          intro leaf hlf
          exact mem_flatMap.2 ⟨keyByte, hby, List.mem_map_of_mem (f := fun leaf => (keyByte :: leaf.1, leaf.2)) hlf⟩
        have hch : Outside layout sizes (children keyByte) := h.2 keyByte hby
        have hemp : (children keyByte).isEmpty = false := by
          cases hc : children keyByte with
          | empty => exact absurd hc hch.ne_empty
          | _ => rfl
        rw [if_pos hby, hemp, if_neg Bool.false_ne_true]
        rcases @ih keyByte (key ++ [keyByte]) hch ⟨rest, by simp⟩ (fun leaf hlf => by
            rw [append_assoc]
            exact hfree _ (hmem leaf hlf)) with ⟨leaf, hlf, heq, hlook⟩ | ⟨hno, hlook⟩
        · rw [length_append, length_singleton] at hlook
          exact .inl ⟨_, hmem leaf hlf, by simpa using heq, hlook⟩
        · rw [length_append, length_singleton] at hlook
          refine .inr ⟨fun leaf hlf heq => ?_, hlook⟩
          obtain ⟨byte, -, hlf⟩ := mem_flatMap.1 hlf
          obtain ⟨leaf', hlf', rfl⟩ := List.mem_map.1 hlf
          obtain ⟨rfl, hrst⟩ := List.cons.inj (append_cancel_left heq)
          exact hno leaf' hlf' (by rw [append_assoc, hrst, singleton_append])
      · rw [if_neg hby]
        refine .inr ⟨fun leaf hlf heq => ?_, rfl⟩
        obtain ⟨byte, hby', hlf⟩ := mem_flatMap.1 hlf
        obtain ⟨leaf, -, rfl⟩ := List.mem_map.1 hlf
        obtain ⟨rfl, -⟩ := List.cons.inj (append_cancel_left heq)
        exact hby hby'

/-! ## Searches -/

/-- What a search returns: all row ids, if there are not too many. -/
def Finds (maxCount : ℕ) (rows : List RowId) (result : Option (Bool × Finset RowId)) : Prop :=
  ∃ found out, result = some (found, out) ∧ (found = true ↔ rows.length ≤ maxCount) ∧
    (found = true → out = rows.toFinset)

theorem Collects.finds {rows : List RowId} {result : Option (Bool × Finset RowId)}
    (h : Collects maxCount ∅ rows result) : Finds maxCount rows result := by
  obtain ⟨found, out, heq, hfnd, hout⟩ := h
  rw [card_empty, Nat.zero_add] at hfnd
  exact ⟨found, out, heq, hfnd, fun h => (hout h).trans (empty_union _)⟩

section

variable (layout)

/-- An index: a tree of the right shape, with keys that are not empty and row ids that occur once. -/
structure IsIndex (tree : Node) : Prop where
  shape : Shape layout .rules tree
  key_ne_nil : ∀ e ∈ entries tree, e.1 ≠ []
  nodup : ((entries tree).flatMap Prod.snd).Nodup

end

/-- The keys of a tree with their row ids occur once. -/
theorem rowsWhere_eq_of_mem (h : Outside layout sizes tree) {leaf : List UInt8 × Node}
    (hlf : leaf ∈ leaves tree) : rowsWhere tree (· = leaf.1) = gateRows leaf.2 [] := by
  rw [rowsWhere_eq]
  have hpw := pairwise_leaves h
  generalize leaves tree = l at hlf hpw
  induction l with
  | nil => exact absurd hlf not_mem_nil
  | cons first rest ih =>
    obtain ⟨hfst, hrst⟩ := pairwise_cons.1 hpw
    rw [flatMap_cons]
    rcases mem_cons.1 hlf with rfl | hmem
    · have hnil : (rest.flatMap fun l => if l.1 = leaf.1 then gateRows l.2 [] else []) = [] :=
        flatMap_eq_nil_iff.2 fun l hl => if_neg (hfst l hl).1.ne'
      rw [if_pos rfl, hnil, append_nil]
    · rw [if_neg (hfst leaf hmem).1.ne, nil_append, ih hmem hrst]

theorem rowsWhere_eq_nil {P : List UInt8 → Prop} [DecidablePred P]
    (h : ∀ leaf ∈ leaves tree, ¬ P leaf.1) : rowsWhere tree P = [] := by
  rw [rowsWhere_eq]
  exact flatMap_eq_nil_iff.2 fun leaf hlf => if_neg (h leaf hlf)

theorem rowsWhere_congr {P Q : List UInt8 → Prop} [DecidablePred P] [DecidablePred Q]
    (h : ∀ key, P key ↔ Q key) : rowsWhere tree P = rowsWhere tree Q := by
  rw [rowsWhere_eq, rowsWhere_eq]
  simp only [h]

/-- A search from the first leaf above a lower bound up to an upper bound. -/
theorem finds_of_moves (h : Outside layout sizes tree)
    (hnd : ((entries tree).flatMap Prod.snd).Nodup) {P : List UInt8 → Prop} [DecidablePred P]
    {result : Option (Bool × Iterator)}
    (hres : Iterator.Moves layout sizes result ⟨[], none⟩ ((visits tree ⟨[], none⟩).filter fun v => P v.1.key))
    (bound : List UInt8) (equal : Bool) (hfree : bound ≠ [] → ∀ leaf ∈ leaves tree, PrefixFree leaf.1 bound)
    (maxCount : ℕ) :
    Finds maxCount (rowsWhere tree fun key => P key ∧ (bound = [] ∨ BelowBound bound equal key))
      (Iterator.scanFrom bound maxCount equal (leafCount tree) ∅ result) := by
  have hsublist : ((visits tree ⟨[], none⟩).filter fun v => P v.1.key).Sublist (visits tree ⟨[], none⟩) :=
    filter_sublist
  have hall : (visits tree ⟨[], none⟩).flatMap visitRows = (entries tree).flatMap Prod.snd := by
    have hfilt := flatMap_visitRows_filter h fun _ => True
    rwa [List.filter_eq_self.2 fun _ _ => decide_eq_true trivial, rowsWhere,
      List.filter_eq_self.2 fun _ _ => decide_eq_true trivial] at hfilt
  have hcollects := Iterator.scanFrom_spec bound equal maxCount hres rfl
    (fun v hv => isVisit_of_mem_visits (p := ⟨[], none⟩) h (hsublist.mem hv))
    (fun hne v hv => by
      obtain ⟨leaf, hlf, heq⟩ := exists_key_of_mem_visits h (hsublist.mem hv)
      rw [heq]
      exact hfree hne leaf hlf)
    ((hsublist.flatMap visitRows).nodup (hall.symm ▸ hnd))
    ((hsublist.length_le).trans_eq (length_visits _ _))
  have hrs : (((visits tree ⟨[], none⟩).filter fun v => P v.1.key).takeWhile
      (Iterator.GoesOn bound equal ·)).flatMap visitRows =
      rowsWhere tree fun key => P key ∧ (bound = [] ∨ BelowBound bound equal key) := by
    rw [takeWhile_eq_filter ((pairwise_visits h).filter _), List.filter_filter,
      ← flatMap_visitRows_filter h fun key => P key ∧ (bound = [] ∨ BelowBound bound equal key)]
    · refine congrArg (flatMap visitRows) (List.filter_congr fun v _ => ?_)
      rw [← Bool.decide_and]
      exact decide_eq_decide.2 and_comm
    · intro v w hle hw
      refine decide_eq_true ((of_decide_eq_true hw).imp_right ?_)
      rintro (hlt | ⟨heql, heq⟩)
      · exact .inl (hle.trans_lt hlt)
      · exact (heq ▸ hle).lt_or_eq.imp_right fun h => ⟨heql, h⟩
  rw [hrs] at hcollects
  exact hcollects.finds

theorem finds_nil (maxCount : ℕ) : Finds maxCount [] (some (true, ∅)) :=
  ⟨true, ∅, rfl, iff_of_true rfl (Nat.zero_le _), fun _ => rfl⟩

namespace IsIndex

variable {tree : Node} {key lower upper : List UInt8}

section

variable (hkey : ∀ e ∈ entries tree, PrefixFree e.1 key)

include hkey

theorem prefixFree_of_leaf {leaf : List UInt8 × Node} (hlf : leaf ∈ leaves tree) : PrefixFree leaf.1 key :=
  hkey _ (mem_map_of_mem (f := fun leaf => (leaf.1, gateRows leaf.2 [])) hlf)

/-- A bound is not empty, since the keys are not. -/
theorem bound_ne_nil (h : IsIndex layout tree) (htree : Outside layout .rules tree) : key ≠ [] := by
  rintro rfl
  obtain ⟨leaf, hlf⟩ := exists_mem_of_ne_nil _ (leaves_ne_nil htree)
  have hmem := mem_map_of_mem (f := fun leaf => (leaf.1, gateRows leaf.2 [])) hlf
  exact h.key_ne_nil _ hmem ((hkey _ hmem).2 nil_prefix)

theorem lowerBound_moves (htree : Outside layout .rules tree) (equal : Bool) :
    Iterator.Moves layout .rules (Iterator.lowerBound key equal tree 0 .new) ⟨[], none⟩
      ((visits tree ⟨[], none⟩).filter fun v => AboveBound key equal v.1.key) := by
  have hmove := @Iterator.lowerBound_spec layout .rules [] key equal tree .new [] htree
    Iterator.new_at (.nil rfl) nil_prefix (fun leaf hlf => prefixFree_of_leaf hkey hlf)
    (fun v hv => absurd hv not_mem_nil)
  rwa [append_nil] at hmove

theorem searchEqual_finds (h : IsIndex layout tree)
    (maxCount : ℕ) : Finds maxCount (rowsWhere tree (· = key)) (searchEqual tree key maxCount ∅) := by
  rcases h.shape with rfl | htree
  · exact finds_nil maxCount
  · rw [searchEqual]
    rcases @lookup_spec layout .rules key tree [] htree nil_prefix (fun leaf hlf => prefixFree_of_leaf hkey hlf) with
      ⟨leaf, hlf, rfl, hlook⟩ | ⟨hno, hlook⟩
    · have hkind := isInlined_or_gate_of_mem_leaves htree hlf
      have hall : rowsWhere leaf.2 (fun key => True ∧ (([] : List UInt8) = [] ∨ BelowBound [] false key)) =
          gateRows leaf.2 [] := by
        rw [rowsWhere_eq, leaves_of_leaf (hkind.imp_right And.left), flatMap_singleton]
        exact if_pos ⟨trivial, .inl rfl⟩
      have hnd : ((entries leaf.2).flatMap Prod.snd).Nodup := by
        rw [entries, leaves_of_leaf (hkind.imp_right And.left), List.map_singleton, flatMap_singleton,
          ← rowsWhere_eq_of_mem htree hlf]
        exact (filter_sublist.flatMap Prod.snd).nodup h.nodup
      obtain ⟨v, rest, it, -, hfind, -, -, -⟩ :=
        Iterator.findMinimum_spec (p := ⟨[], none⟩) (outside_of_leaf hkind) Iterator.new_at
      have hmove := Iterator.findMinimum_moves (p := ⟨[], none⟩) (outside_of_leaf hkind) Iterator.new_at
        (.nil rfl)
      rw [append_nil, hfind,
        ← List.filter_eq_self.2 fun w (_ : w ∈ visits leaf.2 ⟨[], none⟩) => decide_eq_true trivial] at hmove
      have hfinds := finds_of_moves (P := fun _ => True) (outside_of_leaf hkind) hnd hmove []
        false (fun hne => absurd rfl hne) maxCount
      rw [length_nil] at hlook
      rw [hlook, nil_append, rowsWhere_eq_of_mem htree hlf, ← hall]
      dsimp only
      rw [hfind]
      exact hfinds
    · rw [length_nil] at hlook
      rw [hlook, rowsWhere_eq_nil fun leaf hlf => hno leaf hlf]
      exact finds_nil maxCount

/-- `SearchGreater` finds the row ids of all keys above a bound. -/
theorem searchGreater_finds (h : IsIndex layout tree) (equal : Bool) (maxCount : ℕ) :
    Finds maxCount (rowsWhere tree (AboveBound key equal)) (searchGreater tree key equal maxCount ∅) := by
  rcases h.shape with rfl | htree
  · exact finds_nil maxCount
  · have hemp : tree.isEmpty = false := by
      cases tree with
      | empty => exact absurd rfl htree.ne_empty
      | _ => rfl
    rw [searchGreater, hemp, if_neg Bool.false_ne_true]
    have hfind := finds_of_moves htree h.nodup (lowerBound_moves hkey htree equal) [] false
      (fun hne => absurd rfl hne) maxCount
    rwa [rowsWhere_congr fun key' => and_iff_left (.inl rfl)] at hfind

/-- `SearchLess` finds the row ids of all keys below a bound. -/
theorem searchLess_finds (h : IsIndex layout tree) (equal : Bool) (maxCount : ℕ) :
    Finds maxCount (rowsWhere tree (BelowBound key equal)) (searchLess tree key equal maxCount ∅) := by
  rcases h.shape with rfl | htree
  · exact finds_nil maxCount
  · have hemp : tree.isEmpty = false := by
      cases tree with
      | empty => exact absurd rfl htree.ne_empty
      | _ => rfl
    obtain ⟨v, rest, it, hviss, hfind, hvis, -, hentd⟩ :=
      Iterator.findMinimum_spec (p := ⟨[], none⟩) htree Iterator.new_at
    have hmove := Iterator.findMinimum_moves (p := ⟨[], none⟩) htree Iterator.new_at (.nil rfl)
    rw [append_nil, hfind,
      ← filter_eq_self.2 fun w (_ : w ∈ visits tree ⟨[], none⟩) => decide_eq_true trivial] at hmove
    have hfinds := finds_of_moves (P := fun _ => True) htree h.nodup hmove key equal
      (fun _ leaf hlf => prefixFree_of_leaf hkey hlf) maxCount
    rw [rowsWhere_congr fun key' => (and_iff_right trivial).trans (or_iff_right (h.bound_ne_nil hkey htree))] at hfinds
    rw [searchLess, hemp, if_neg Bool.false_ne_true, hfind]
    dsimp only
    split_ifs with hgr
    · -- The scan would stop at once.
      have hstat : it.status = false ∨ it.enteredNestedLeaf = true := by
        rcases hentd with h' | h' | ⟨h', -⟩
        · exact .inr h'
        · rw [(hvis [] (.nil rfl)).at_.status, h']
          exact .inl rfl
        · exact absurd h' Bool.false_ne_true
      have hscan : Iterator.scan key maxCount equal (leafCount tree) it ∅ = some (true, ∅) := by
        rw [← length_visits tree ⟨[], none⟩, hviss, length_cons, Iterator.scan,
          if_pos ⟨h.bound_ne_nil hkey htree, hstat, hgr⟩]
      exact hscan ▸ hfinds
    · exact hfinds

end

/-- `SearchCloseRange` finds the row ids of all keys between two bounds. -/
theorem searchCloseRange_finds (h : IsIndex layout tree) (hlow : ∀ e ∈ entries tree, PrefixFree e.1 lower)
    (hup : ∀ e ∈ entries tree, PrefixFree e.1 upper) (leftEqual rightEqual : Bool) (maxCount : ℕ) :
    Finds maxCount (rowsWhere tree fun key => AboveBound lower leftEqual key ∧ BelowBound upper rightEqual key)
      (searchCloseRange tree lower upper leftEqual rightEqual maxCount ∅) := by
  rcases h.shape with rfl | htree
  · exact finds_nil maxCount
  · have hfind := finds_of_moves htree h.nodup (lowerBound_moves hlow htree leftEqual) upper
      rightEqual (fun _ leaf hlf => prefixFree_of_leaf hup hlf) maxCount
    rwa [rowsWhere_congr fun key' => and_congr_right' (or_iff_right (h.bound_ne_nil hup htree))] at hfind

/-- Every search returns the row ids of the keys within its bounds, and tells if there are more than
    it may return. -/
theorem searches_find (h : IsIndex layout tree) (maxCount : ℕ) : (∀ key, (∀ e ∈ entries tree, PrefixFree e.1 key) →
      Finds maxCount (rowsWhere tree (· = key)) (searchEqual tree key maxCount ∅)) ∧
    (∀ lower equal, (∀ e ∈ entries tree, PrefixFree e.1 lower) →
      Finds maxCount (rowsWhere tree (AboveBound lower equal)) (searchGreater tree lower equal maxCount ∅)) ∧
    (∀ upper equal, (∀ e ∈ entries tree, PrefixFree e.1 upper) →
      Finds maxCount (rowsWhere tree (BelowBound upper equal)) (searchLess tree upper equal maxCount ∅)) ∧
    ∀ lower upper leftEqual rightEqual, (∀ e ∈ entries tree, PrefixFree e.1 lower) →
      (∀ e ∈ entries tree, PrefixFree e.1 upper) →
      Finds maxCount
        (rowsWhere tree fun key => AboveBound lower leftEqual key ∧ BelowBound upper rightEqual key)
        (searchCloseRange tree lower upper leftEqual rightEqual maxCount ∅) :=
  ⟨fun _ hkey => h.searchEqual_finds hkey maxCount, fun _ equal hlow => h.searchGreater_finds hlow equal maxCount,
    fun _ equal hup => h.searchLess_finds hup equal maxCount,
    fun _ _ leftEqual rightEqual hlow hup =>
      h.searchCloseRange_finds hlow hup leftEqual rightEqual maxCount⟩

/-- A key with one row id, and one with two. -/
def mixedTree : Node := .inner false .node4 [1, 2] fun byte =>
    if byte = 1 then .inlined 5
    else .prefixNode true [128, 0, 0, 0, 0, 0, 0] (.leafNode false .node7Leaf [3, 4])

theorem isIndex_mixedTree : IsIndex ⟨7, le_rfl⟩ mixedTree := by
  refine ⟨.inr ⟨⟨by decide, by decide, by decide⟩, ?_⟩, by decide, by decide⟩
  intro byte hby
  rcases mem_pair.1 hby with rfl | rfl
  · trivial
  · refine ⟨⟨rfl, by decide, by decide, nofun, rfl, rfl, rfl, rfl, by decide, by decide, by decide⟩, by decide⟩

theorem searches_find_mixedTree : Finds 2 [3, 4] (searchGreater mixedTree [1] false 2 ∅) ∧
      Finds 2 [5, 3, 4] (searchCloseRange mixedTree [1] [2] true true 2 ∅) := by
  obtain ⟨-, hgr, -, hrng⟩ := searches_find isIndex_mixedTree 2
  exact ⟨hgr [1] false (by decide), hrng [1] [2] true true (by decide) (by decide)⟩

end IsIndex

end Art

end WfOpt

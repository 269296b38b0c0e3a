import WfOpt.Optimizer.FilterCombiner

/-!
# Equivalence sets of the filter combiner

What a combiner says of a row (`Holds`) is that the remaining filters are true, and that the entries of each set are
equal and meet the comparisons of the set. If adding a filter succeeds, then the combiner says what it said before
and the filter; if it is unsupported, then no more than before (`Adds`). This composes (`Adds.after`), and holds for
a comparison with a constant (`addConstant_adds`) and for sets that are merged (`mergeBuckets_adds`).
-/

namespace WfOpt

open List Function

variable {α E F R : Type} [LinearOrder α] {context : FilterContext α E F R} {row : R}

/-! ## Comparisons that are true -/

theorem isTrue_iff {comparisonType : ComparisonType} (h : comparisonType.isSupported = true)
    {left right : FilterOperand α E} :
    BoundComparison.IsTrue context ⟨comparisonType, left, right⟩ row ↔
      ∃ x y, left.evaluate context row = some x ∧ right.evaluate context row = some y ∧
        comparisonType.holds x y = true := by
  rw [BoundComparison.IsTrue]
  cases left.evaluate context row with
  | none => cases comparisonType <;> simp [ComparisonType.evaluate, ComparisonType.isSupported] at h ⊢
  | some x =>
    cases right.evaluate context row with
    | none
    | some y => cases comparisonType <;> simp [ComparisonType.evaluate, ComparisonType.isSupported] at h ⊢

theorem isTrue_flip {comparisonType : ComparisonType} {left right : FilterOperand α E} :
    BoundComparison.IsTrue context ⟨comparisonType.flip, right, left⟩ row ↔
      BoundComparison.IsTrue context ⟨comparisonType, left, right⟩ row := by
  rw [BoundComparison.IsTrue, BoundComparison.IsTrue, ComparisonType.evaluate_flip]

theorem isSupported_greaterThanType (inclusive : Bool) : (greaterThanType inclusive).isSupported = true := by
  cases inclusive <;> rfl

theorem isSupported_lessThanType (inclusive : Bool) : (lessThanType inclusive).isSupported = true := by
  cases inclusive <;> rfl

theorem ComparisonType.isSupported_flip (comparisonType : ComparisonType) :
    comparisonType.flip.isSupported = comparisonType.isSupported := by
  cases comparisonType <;> rfl

theorem isTrue_info {info : ValueInformation α} (h : info.comparisonType.isSupported = true)
    {entry : FilterOperand α E} :
    BoundComparison.IsTrue context ⟨info.comparisonType, entry, .boundConstant (some info.constant)⟩ row ↔
      ∃ v, entry.evaluate context row = some v ∧ info.Holds v := by
  rw [isTrue_iff h]
  constructor
  · rintro ⟨x, y, hx, hy, hhld⟩
    cases hy
    exact ⟨x, hx, hhld⟩
  · rintro ⟨v, hv, hhld⟩
    exact ⟨v, _, hv, rfl, hhld⟩

/-- Two operands have the same value, which is not `NULL`. -/
def FilterOperand.SameValue (context : FilterContext α E F R) (row : R) (x y : FilterOperand α E) : Prop :=
  ∃ v, x.evaluate context row = some v ∧ y.evaluate context row = some v

instance (context : FilterContext α E F R) (row : R) :
    Std.Symm (FilterOperand.SameValue (α := α) (E := E) context row) :=
  ⟨fun _ _ ⟨v, hx, hy⟩ => ⟨v, hy, hx⟩⟩

theorem isTrue_equal {x y : FilterOperand α E} :
    BoundComparison.IsTrue context ⟨.equal, x, y⟩ row ↔ x.SameValue context row y := by
  rw [isTrue_iff rfl, FilterOperand.SameValue]
  constructor
  · rintro ⟨v, w, hv, hw, heq⟩
    rw [ComparisonType.holds_equal] at heq
    exact ⟨v, hv, heq ▸ hw⟩
  · rintro ⟨v, hx, hy⟩
    exact ⟨v, v, hx, hy, ComparisonType.holds_equal.2 rfl⟩

namespace FilterCombiner

/-! ## What a combiner says -/

/-- The filters of an equivalence set are true. -/
structure SetHolds (context : FilterContext α E F R) (row : R) (entries : List (FilterOperand α E))
    (constants : List (ValueInformation α)) : Prop where
  equal : entries.Pairwise (FilterOperand.SameValue context row)
  constants : ∀ entry ∈ entries, ∀ info ∈ constants, ∃ v, entry.evaluate context row = some v ∧ info.Holds v

/-- The filters of a combiner are true. -/
structure Holds (context : FilterContext α E F R) (combiner : FilterCombiner α E F) (row : R) : Prop where
  remaining : ∀ filter ∈ combiner.remainingFilters, filter.IsTrue context row
  sets : ∀ index, SetHolds context row (combiner.equivalenceMap index) (combiner.constantValues index)

/-- An expression is in its set, unused sets are empty, and the comparisons of a set are pruned against each other. -/
structure Inv (combiner : FilterCombiner α E F) : Prop where
  mem : ∀ expr index, combiner.equivalenceSetMap expr = some index → expr ∈ combiner.equivalenceMap index
  fresh : ∀ index, combiner.setIndex ≤ index →
    combiner.equivalenceMap index = [] ∧ combiner.constantValues index = []
  normal : ∀ index, NormalInfos (combiner.constantValues index)

/-- Expressions are never taken out of a set. -/
def Grows (combiner combiner' : FilterCombiner α E F) : Prop :=
  ∀ index, combiner.equivalenceMap index ⊆ combiner'.equivalenceMap index

/-- A combiner says no less than before, and no more than this and the filter. -/
structure Keeps (context : FilterContext α E F R) (combiner : FilterCombiner α E F) (p : R → Prop)
    (combiner' : FilterCombiner α E F) : Prop where
  inv : combiner'.Inv
  grows : combiner.Grows combiner'
  keeps : ∀ row, combiner.Holds context row → p row → combiner'.Holds context row
  sound : ∀ row, combiner'.Holds context row → combiner.Holds context row

/-- What adding a filter has to do. -/
def Adds (context : FilterContext α E F R) (combiner : FilterCombiner α E F) (p : R → Prop) :
    FilterResult × FilterCombiner α E F → Prop
  | (.unsatisfiable, _) => ∀ row, combiner.Holds context row → ¬p row
  | (.unsupported, combiner') => Keeps context combiner p combiner'
  | (.success, combiner') =>
    Keeps context combiner p combiner' ∧ ∀ row, combiner'.Holds context row → p row

section Rules

variable {combiner combiner' : FilterCombiner α E F} {p q : R → Prop}
  {result : FilterResult × FilterCombiner α E F}

theorem Keeps.refl (h : combiner.Inv) : Keeps context combiner p combiner :=
  ⟨h, fun _ => List.Subset.refl _, fun _ h _ => h, fun _ h => h⟩

theorem Keeps.trans {combiner'' : FilterCombiner α E F} (h : Keeps context combiner p combiner')
    (h' : Keeps context combiner' p combiner'') : Keeps context combiner p combiner'' where
  inv := h'.inv
  grows index := List.Subset.trans (h.grows index) (h'.grows index)
  keeps row hhld hp := h'.keeps row (h.keeps row hhld hp) hp
  sound row hhld := h.sound row (h'.sound row hhld)

theorem Keeps.imp (h : Keeps context combiner p combiner')
    (hpq : ∀ row, combiner.Holds context row → q row → p row) : Keeps context combiner q combiner' where
  inv := h.inv
  grows := h.grows
  keeps row hhld hq := h.keeps row hhld (hpq row hhld hq)
  sound := h.sound

/-- What was added to a combiner that kept the filter has been added. -/
theorem Adds.after (h : Keeps context combiner p combiner') (hadds : Adds context combiner' p result) :
    Adds context combiner p result := by
  obtain ⟨result, combiner''⟩ := result
  cases result with
  | unsatisfiable => exact fun row hhld hp => hadds row (h.keeps row hhld hp) hp
  | unsupported => exact h.trans hadds
  | success => exact ⟨h.trans hadds.1, hadds.2⟩

theorem Adds.congr (h : Adds context combiner p result)
    (hpq : ∀ row, combiner.Holds context row → (p row ↔ q row)) : Adds context combiner q result := by
  obtain ⟨result, combiner'⟩ := result
  cases result with
  | unsatisfiable => exact fun row hhld hq => h row hhld ((hpq row hhld).2 hq)
  | unsupported => exact h.imp fun row hhld => (hpq row hhld).2
  | success =>
    refine ⟨h.1.imp fun row hhld => (hpq row hhld).2, ?_⟩
    intro row hhld
    exact (hpq row (h.1.sound row hhld)).1 (h.2 row hhld)

theorem Adds.keeps (h : Adds context combiner p result) (hne : result.1 ≠ .unsatisfiable) :
    Keeps context combiner p result.2 := by
  obtain ⟨result, combiner'⟩ := result
  cases result with
  | unsatisfiable => exact absurd rfl hne
  | unsupported => exact h
  | success => exact h.1

/-- A filter that follows from what is said already -/
theorem Adds.of_implied (h : combiner.Inv) (hp : ∀ row, combiner.Holds context row → p row) :
    Adds context combiner p (.success, combiner) :=
  ⟨.refl h, hp⟩

end Rules

/-! ## Equivalence sets -/

theorem SetHolds.evaluate_eq {entries : List (FilterOperand α E)} {constants : List (ValueInformation α)}
    (h : SetHolds context row entries constants) {x y : FilterOperand α E} (hx : x ∈ entries) (hy : y ∈ entries)
    {v : α} (hv : x.evaluate context row = some v) : y.evaluate context row = some v := by
  by_cases hxy : x = y
  · exact hxy ▸ hv
  · obtain ⟨w, hw, hw'⟩ := h.equal.forall hx hy hxy
    rw [hw', ← hw, hv]

section Sets

variable (context) [DecidableEq E] {combiner : FilterCombiner α E F}

theorem getEquivalenceSet_keeps (h : combiner.Inv) (expr : FilterOperand α E) (p : R → Prop) :
    Keeps context combiner p (combiner.getEquivalenceSet expr).2 ∧
      expr ∈ (combiner.getEquivalenceSet expr).2.equivalenceMap (combiner.getEquivalenceSet expr).1 := by
  rw [getEquivalenceSet]
  cases hset : combiner.equivalenceSetMap expr with
  | some index => exact ⟨.refl h, h.mem expr index hset⟩
  | none =>
    dsimp only
    obtain ⟨hents, hconsts⟩ := h.fresh combiner.setIndex le_rfl
    have hnew : ∀ index ≠ combiner.setIndex,
        update combiner.equivalenceMap combiner.setIndex [expr] index = combiner.equivalenceMap index :=
      fun index hidx => update_of_ne hidx _ _
    rw [hents, nil_append]
    -- The new set has one entry, and no constants.
    have hiff : ∀ row, (∀ index, SetHolds context row
          (update combiner.equivalenceMap combiner.setIndex [expr] index) (combiner.constantValues index)) ↔
        ∀ index, SetHolds context row (combiner.equivalenceMap index) (combiner.constantValues index) := by
      intro row
      refine forall_congr' fun index => ?_
      by_cases hidx : index = combiner.setIndex
      · subst hidx
        rw [update_self, hents, hconsts]
        exact ⟨fun _ => ⟨.nil, fun _ h => (not_mem_nil h).elim⟩,
          fun _ => ⟨pairwise_singleton _ _, fun _ _ _ h => (not_mem_nil h).elim⟩⟩
      · rw [hnew index hidx]
    refine ⟨⟨⟨?_, ?_, h.normal⟩, ?_, ?_, ?_⟩, ?_⟩
    · intro expr' index hmap
      dsimp only at hmap ⊢
      by_cases hexpr : expr' = expr
      · subst hexpr
        rw [update_self, Option.some.injEq] at hmap
        subst hmap
        rw [update_self]
        exact mem_singleton_self _
      · rw [update_of_ne hexpr] at hmap
        have hmem := h.mem expr' index hmap
        by_cases hidx : index = combiner.setIndex
        · rw [hidx, hents] at hmem
          exact (not_mem_nil hmem).elim
        · rwa [hnew index hidx]
    · intro index hidx
      dsimp only at hidx ⊢
      rw [hnew index (by omega)]
      exact h.fresh index (by omega)
    · intro index
      by_cases hidx : index = combiner.setIndex
      · rw [hidx, hents]
        exact nil_subset _
      · dsimp only
        rw [hnew index hidx]
        exact List.Subset.refl _
    · exact fun row hhld _ => ⟨hhld.remaining, (hiff row).2 hhld.sets⟩
    · exact fun row hhld => ⟨hhld.remaining, (hiff row).1 hhld.sets⟩
    · rw [update_self]
      exact mem_singleton_self _

variable {entry : FilterOperand α E}

omit [DecidableEq E] in
theorem setHolds_constants_iff (row : R) {entries : List (FilterOperand α E)}
    {infoList infoList' : List (ValueInformation α)}
    {p : α → Prop} (hne : infoList' ≠ [])
    (hiff : ∀ v, (∀ i ∈ infoList', i.Holds v) ↔ (∀ i ∈ infoList, i.Holds v) ∧ p v)
    (hent : entry ∈ entries) :
    SetHolds context row entries infoList' ↔
      SetHolds context row entries infoList ∧ ∃ v, entry.evaluate context row = some v ∧ p v := by
  -- The comparisons of an entry are those of its value.
  have hval : ∀ {infos : List (ValueInformation α)} {other : FilterOperand α E} {v : α},
      other.evaluate context row = some v →
      (∀ i ∈ infos, ∃ w, other.evaluate context row = some w ∧ i.Holds w) → ∀ i ∈ infos, i.Holds v := by
    intro infos other v hv h i hi
    obtain ⟨w, hw, hhld⟩ := h i hi
    rw [hv, Option.some.injEq] at hw
    exact hw ▸ hhld
  obtain ⟨first, hfst⟩ := exists_mem_of_ne_nil _ hne
  constructor
  · intro h
    have hall : ∀ other ∈ entries, ∃ v, other.evaluate context row = some v ∧ (∀ i ∈ infoList, i.Holds v) ∧ p v := by
      intro other hoth
      obtain ⟨v, hv, -⟩ := h.constants other hoth first hfst
      exact ⟨v, hv, (hiff v).1 (hval hv (h.constants other hoth))⟩
    refine ⟨⟨h.equal, ?_⟩, ?_⟩
    · intro other hoth info hinf
      obtain ⟨v, hv, hold, -⟩ := hall other hoth
      exact ⟨v, hv, hold info hinf⟩
    · obtain ⟨v, hv, -, hp⟩ := hall entry hent
      exact ⟨v, hv, hp⟩
  · rintro ⟨h, v, hv, hp⟩
    refine ⟨h.equal, ?_⟩
    intro other hoth info hinf
    have hnew := (hiff v).2 ⟨hval hv (h.constants entry hent), hp⟩
    exact ⟨v, h.evaluate_eq hent hoth hv, hnew info hinf⟩

omit [DecidableEq E] in
theorem addConstant_adds (h : combiner.Inv) {equivalenceSet : ℕ}
    (hent : entry ∈ combiner.equivalenceMap equivalenceSet) {comparisonType : ComparisonType}
    (htype : comparisonType.isSupported = true) (constant : Option α) :
    Adds context combiner
      (fun row => BoundComparison.IsTrue context ⟨comparisonType, entry, .boundConstant constant⟩ row)
      (combiner.addConstant equivalenceSet constant comparisonType) := by
  have hlist := h.normal equivalenceSet
  have hused : ¬combiner.setIndex ≤ equivalenceSet := by
    intro hle
    rw [(h.fresh equivalenceSet hle).1] at hent
    exact not_mem_nil hent
  rw [addConstant]
  by_cases hres :
      (addConstantComparison (combiner.constantValues equivalenceSet) constant comparisonType).1 = .unsatisfiable
  · -- The value of the entry would meet all the comparisons.
    rw [hres]
    intro row hhld htrue
    obtain ⟨v, c, hv, hc, hvc⟩ := (isTrue_iff htype).1 htrue
    refine addConstantComparison_unsatisfiable hlist htype hres (v := v) ?_ hc hvc
    intro info hinf
    obtain ⟨w, hw, hhld⟩ := (hhld.sets equivalenceSet).constants entry hent info hinf
    rw [hv, Option.some.injEq] at hw
    exact hw ▸ hhld
  · obtain ⟨hsuc, hnorm, hne, hiff⟩ := addConstantComparison_success hlist htype hres
    rw [hsuc]
    set infoList := (addConstantComparison (combiner.constantValues equivalenceSet) constant comparisonType).2
    have hoth : ∀ index ≠ equivalenceSet,
        update combiner.constantValues equivalenceSet infoList index = combiner.constantValues index :=
      fun index hidx => update_of_ne hidx _ _
    have hsets : ∀ row, (∀ index, SetHolds context row (combiner.equivalenceMap index)
          (update combiner.constantValues equivalenceSet infoList index)) ↔
        (∀ index, SetHolds context row (combiner.equivalenceMap index) (combiner.constantValues index)) ∧
          BoundComparison.IsTrue context ⟨comparisonType, entry, .boundConstant constant⟩ row := by
      intro row
      have hset := setHolds_constants_iff context row hne hiff hent
      have htrue : BoundComparison.IsTrue context ⟨comparisonType, entry, .boundConstant constant⟩ row ↔
          ∃ v, entry.evaluate context row = some v ∧ ∃ c, constant = some c ∧ comparisonType.holds v c = true := by
        rw [isTrue_iff htype]
        exact exists_congr fun v =>
          ⟨fun ⟨c, hv, hc, hvc⟩ => ⟨hv, c, hc, hvc⟩, fun ⟨hv, c, hc, hvc⟩ => ⟨c, hv, hc, hvc⟩⟩
      rw [htrue]
      constructor
      · intro hall
        have hself := hall equivalenceSet
        rw [update_self] at hself
        refine ⟨?_, (hset.1 hself).2⟩
        intro index
        by_cases hidx : index = equivalenceSet
        · exact hidx ▸ (hset.1 hself).1
        · exact hoth index hidx ▸ hall index
      · rintro ⟨hall, hentryTrue⟩ index
        by_cases hidx : index = equivalenceSet
        · subst hidx
          rw [update_self]
          exact hset.2 ⟨hall index, hentryTrue⟩
        · rw [hoth index hidx]
          exact hall index
    refine ⟨⟨⟨h.mem, ?_, ?_⟩, fun _ => List.Subset.refl _, ?_, ?_⟩, ?_⟩
    · intro index hidx
      have hidx' : index ≠ equivalenceSet := by
        rintro rfl
        exact hused hidx
      exact ⟨(h.fresh index hidx).1, (hoth index hidx').trans (h.fresh index hidx).2⟩
    · intro index
      dsimp only
      by_cases hidx : index = equivalenceSet
      · subst hidx
        rw [update_self]
        exact hnorm
      · rw [hoth index hidx]
        exact h.normal index
    · exact fun row hhld htrue => ⟨hhld.remaining, (hsets row).2 ⟨hhld.sets, htrue⟩⟩
    · exact fun row hhld => ⟨hhld.remaining, ((hsets row).1 hhld.sets).1⟩
    · exact fun row hhld => ((hsets row).1 hhld.sets).2

/-! ## Merging sets -/

omit [DecidableEq E] in
theorem addRightConstants_adds {leftEquivalenceSet : ℕ} {rightConstants : List (ValueInformation α)}
    (hsup : ∀ info ∈ rightConstants, info.comparisonType.isSupported = true) (h : combiner.Inv)
    (hent : entry ∈ combiner.equivalenceMap leftEquivalenceSet)
    (hrt : ∀ info ∈ rightConstants, ∀ row, combiner.Holds context row →
      ∃ v, entry.evaluate context row = some v ∧ info.Holds v) :
    Adds context combiner (fun _ => True) (addRightConstants leftEquivalenceSet rightConstants combiner) := by
  induction rightConstants generalizing combiner with
  | nil => exact .of_implied h fun _ _ => trivial
  | cons rightConstant rightConstants ih =>
    obtain ⟨hsupp, hsup⟩ := forall_mem_cons.1 hsup
    obtain ⟨hfst, hrst⟩ := forall_mem_cons.1 hrt
    rw [addRightConstants]
    have hadds := (addConstant_adds context h hent hsupp (some rightConstant.constant)).congr
      (q := fun _ => True) fun row hhld =>
        ⟨fun _ => trivial, fun _ => (isTrue_info hsupp).2 (hfst row hhld)⟩
    cases hadd : combiner.addConstant leftEquivalenceSet (some rightConstant.constant)
        rightConstant.comparisonType with
    | mk result combiner' =>
      rw [hadd] at hadds
      cases result with
      | unsatisfiable => exact hadds
      | unsupported =>
        exact absurd (congrArg Prod.fst hadd) (addConstantComparison_ne_unsupported _ _ _)
      | success =>
        obtain ⟨hkeep, -⟩ := hadds
        refine Adds.after hkeep (ih hsup hkeep.inv (hkeep.grows _ hent) ?_)
        exact fun info hinf row hhld => hrst info hinf row (hkeep.sound row hhld)

/-- The bucket that is merged stays behind, so that its constants still hold for the entries. -/
theorem mergeBuckets_adds (h : combiner.Inv) {left right : FilterOperand α E} {leftSet rightSet : ℕ}
    (hlft : left ∈ combiner.equivalenceMap leftSet) (hrt : right ∈ combiner.equivalenceMap rightSet)
    (hne : leftSet ≠ rightSet) :
    Adds context combiner (fun row => left.SameValue context row right)
      (.success, combiner.mergeBuckets leftSet rightSet) := by
  have hoth : ∀ index ≠ leftSet, ∀ entries,
      update combiner.equivalenceMap leftSet entries index = combiner.equivalenceMap index :=
    fun index hidx entries => update_of_ne hidx _ _
  have hsets : ∀ row, (∀ index, SetHolds context row
        ((combiner.mergeBuckets leftSet rightSet).equivalenceMap index) (combiner.constantValues index)) ↔
      (∀ index, SetHolds context row (combiner.equivalenceMap index) (combiner.constantValues index)) ∧
        left.SameValue context row right := by
    intro row
    simp only [mergeBuckets]
    constructor
    · intro hall
      have hself := hall leftSet
      rw [update_self] at hself
      obtain ⟨heql, -, hcross⟩ := pairwise_append.1 hself.equal
      refine ⟨?_, hcross left hlft right hrt⟩
      intro index
      by_cases hidx : index = leftSet
      · subst hidx
        exact ⟨heql, fun entry hent => hself.constants entry (mem_append_left _ hent)⟩
      · exact hoth index hidx _ ▸ hall index
    · rintro ⟨hall, v, hv, hv'⟩ index
      by_cases hidx : index = leftSet
      · subst hidx
        rw [update_self]
        -- All entries of both buckets have the same value.
        have hval : ∀ entry ∈ combiner.equivalenceMap index, entry.evaluate context row = some v :=
          fun entry hent => (hall index).evaluate_eq hlft hent hv
        have hval' : ∀ entry ∈ combiner.equivalenceMap rightSet, entry.evaluate context row = some v :=
          fun entry hent => (hall rightSet).evaluate_eq hrt hent hv'
        refine ⟨pairwise_append.2 ⟨(hall index).equal, (hall rightSet).equal, ?_⟩, ?_⟩
        · exact fun x hx y hy => ⟨v, hval x hx, hval' y hy⟩
        · intro entry hent info hinf
          obtain ⟨w, hw, hhld⟩ := (hall index).constants left hlft info hinf
          rw [hv, Option.some.injEq] at hw
          subst hw
          rcases mem_append.1 hent with hent | hent
          · exact ⟨v, hval entry hent, hhld⟩
          · exact ⟨v, hval' entry hent, hhld⟩
      · rw [hoth index hidx]
        exact hall index
  have hgrows : combiner.Grows (combiner.mergeBuckets leftSet rightSet) := by
    intro index
    simp only [mergeBuckets]
    by_cases hidx : index = leftSet
    · subst hidx
      rw [update_self]
      exact subset_append_left _ _
    · rw [hoth index hidx]
      exact List.Subset.refl _
  refine ⟨⟨⟨?_, ?_, h.normal⟩, hgrows, ?_, ?_⟩, ?_⟩
  · intro expr index hmap
    simp only [mergeBuckets] at hmap
    split_ifs at hmap with hexpr
    · cases hmap
      simp only [mergeBuckets]
      rw [update_self]
      exact mem_append_right _ hexpr
    · exact hgrows index (h.mem expr index hmap)
  · intro index hidx
    have hidx' : index ≠ leftSet := by
      rintro rfl
      rw [(h.fresh index hidx).1] at hlft
      exact not_mem_nil hlft
    exact ⟨(hoth index hidx' _).trans (h.fresh index hidx).1, (h.fresh index hidx).2⟩
  · exact fun row hhld hsm => ⟨hhld.remaining, (hsets row).2 ⟨hhld.sets, hsm⟩⟩
  · exact fun row hhld => ⟨hhld.remaining, ((hsets row).1 hhld.sets).1⟩
  · exact fun row hhld => ((hsets row).1 hhld.sets).2

end Sets

end FilterCombiner

end WfOpt

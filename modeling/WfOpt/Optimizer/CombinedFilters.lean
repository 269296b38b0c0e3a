import WfOpt.Optimizer.TransitiveFilters

/-!
# Combined filters say the same

The filters that a combiner generates are true for the rows for which the combiner holds (`generateFilters_iff`), and
adding filters adds what they say (`addFilters_spec`). So the conjuncts are preserved, whatever their order. The
exception is a BETWEEN of a constant whose lower bound is no constant and whose bounds are not inclusive alike, which
`preserves_of_matchingBounds` leaves out.
-/

namespace WfOpt

open Option List

variable {α E F R : Type} [LinearOrder α] {context : FilterContext α E F R} {row : R}

/-- A BETWEEN of a constant and a constant upper bound only is inclusive at both ends or at none. -/
def FilterConjunct.MatchingBounds : FilterConjunct α E F → Prop
  | .between (.boundConstant _) (.expression _) (.boundConstant _) lowerInclusive upperInclusive =>
    lowerInclusive = upperInclusive
  | _ => True

namespace FilterCombiner

section Sets

variable [DecidableEq E] {combiner : FilterCombiner α E F}

/-! ## Adding filters -/

theorem addScalarComparison_adds (h : combiner.Inv) (node : FilterOperand α E) (constant : Option α)
    {comparisonType : ComparisonType} (htype : comparisonType.isSupported = true) :
    Adds context combiner
      (fun row => BoundComparison.IsTrue context ⟨comparisonType, node, .boundConstant constant⟩ row)
      (addScalarComparison context node constant comparisonType combiner) := by
  obtain ⟨hkeep, hnode⟩ := getEquivalenceSet_keeps context h node
    (fun row => BoundComparison.IsTrue context ⟨comparisonType, node, .boundConstant constant⟩ row)
  cases constant with
  | none =>
    intro row _ htrue
    obtain ⟨x, y, -, hy, -⟩ := (isTrue_iff htype).1 htrue
    exact nomatch hy
  | some value =>
    rw [addScalarComparison]
    dsimp only
    set nodeSet := combiner.getEquivalenceSet node
    by_cases hval : ¬context.sameType node value
    · rw [if_pos hval]
      exact hkeep
    · rw [if_neg hval]
      refine Adds.after hkeep ?_
      have hadds := addConstant_adds context hkeep.inv hnode htype (some value)
      cases hadd : nodeSet.2.addConstant nodeSet.1 (some value) comparisonType with
      | mk result combiner' =>
        rw [hadd] at hadds
        cases hfnd : addFoundFilter context (addTransitiveFilters context) node combiner' with
        | mk result' combiner'' =>
          cases result with
          | unsupported =>
            exact absurd (congrArg Prod.fst hadd) (addConstantComparison_ne_unsupported _ _ _)
          | unsatisfiable =>
            -- Whatever follows, the filter stays unsatisfiable.
            cases result' <;> exact hadds
          | success =>
            have hadds' := addFoundFilter_adds context
              (fun filter combiner hinv => addTransitiveFilters_adds hinv filter) hadds.1.inv node
            rw [hfnd] at hadds'
            have hkeep' : result' ≠ .unsatisfiable → Adds context nodeSet.2
                  (fun row => BoundComparison.IsTrue context ⟨comparisonType, node, .boundConstant (some value)⟩ row)
                  (.success, combiner'') := by
              intro hne
              have hfilts := hadds'.keeps hne
              refine ⟨hadds.1.trans (hfilts.imp fun _ _ _ => trivial), ?_⟩
              exact fun row hhld => hadds.2 row (hfilts.sound row hhld)
            cases result' with
            | unsatisfiable =>
              exact fun row hhld htrue => hadds' row (hadds.1.keeps row hhld htrue) trivial
            | unsupported => exact hkeep' nofun
            | success => exact hkeep' nofun

theorem addEquality_adds (h : combiner.Inv) (left right : FilterOperand α E) :
    Adds context combiner (fun row => BoundComparison.IsTrue context ⟨.equal, left, right⟩ row)
      (addEquality left right combiner) := by
  rw [addEquality]
  by_cases hsm : left = right
  · rw [if_pos hsm]
    exact .refl h
  rw [if_neg hsm]
  obtain ⟨hkeep, hlft⟩ := getEquivalenceSet_keeps context h left
    (BoundComparison.IsTrue context ⟨.equal, left, right⟩)
  set leftSet := combiner.getEquivalenceSet left
  obtain ⟨hkeep', hrt⟩ := getEquivalenceSet_keeps context hkeep.inv right
    (BoundComparison.IsTrue context ⟨.equal, left, right⟩)
  set rightSet := leftSet.2.getEquivalenceSet right
  refine Adds.after (hkeep.trans hkeep') ?_
  by_cases hsets : leftSet.1 = rightSet.1
  · rw [if_pos hsets]
    refine .of_implied hkeep'.inv ?_
    intro row hhld
    have hmem := hsets ▸ hkeep'.grows leftSet.1 hlft
    exact isTrue_equal.2 ((hhld.sets rightSet.1).equal.forall hmem hrt hsm)
  · rw [if_neg hsets]
    have hlft' := hkeep'.grows leftSet.1 hlft
    obtain ⟨hmrg, heql⟩ := mergeBuckets_adds context hkeep'.inv hlft' hrt hsets
    have hconsts := addRightConstants_adds context
      (hkeep'.inv.normal rightSet.1).supported hmrg.inv (hmrg.grows leftSet.1 hlft') (by
        intro info hinf row hhld
        -- The constants of the right set hold for its entry on the right side, which is equal to the left side.
        obtain ⟨v, hv, hhld'⟩ := ((hmrg.sound row hhld).sets rightSet.1).constants right hrt info hinf
        obtain ⟨w, hw, hw'⟩ := heql row hhld
        rw [hv, some.injEq] at hw'
        exact ⟨v, hw' ▸ hw, hhld'⟩)
    refine Adds.after (hmrg.imp fun _ _ => isTrue_equal.1) (hconsts.congr ?_)
    exact fun row hhld => ⟨fun _ => isTrue_equal.2 (heql row hhld), fun _ => trivial⟩

omit [LinearOrder α] [DecidableEq E] in
theorem eq_boundConstant {operand : FilterOperand α E} {constant : Option α}
    (h : operand.scalar? = some constant) : operand = .boundConstant constant := by
  cases operand with
  | boundConstant value => exact congrArg _ (some.inj h)
  | expression expr => exact nomatch h

theorem addBoundComparisonFilter_adds (h : combiner.Inv) (comparison : BoundComparison α E) :
    Adds context combiner (fun row => comparison.IsTrue context row)
      (addBoundComparisonFilter context comparison combiner) := by
  obtain ⟨comparisonType, left, right⟩ := comparison
  rw [addBoundComparisonFilter]
  by_cases htype : comparisonType.isSupported = true
  · rw [if_neg (not_not.2 htype)]
    cases left with
    | boundConstant constant =>
      refine (addScalarComparison_adds h right constant ?_).congr fun row _ => isTrue_flip
      rw [ComparisonType.isSupported_flip, htype]
    | expression left =>
      cases right with
      | boundConstant constant => exact addScalarComparison_adds h (.expression left) constant htype
      | expression right =>
        by_cases heql : comparisonType = .equal
        · rw [if_neg (not_not.2 heql), heql]
          exact addEquality_adds h (.expression left) (.expression right)
        · rw [if_pos heql]
          exact .refl h
  · rw [if_pos htype]
    exact .refl h

omit [DecidableEq E] in
theorem Adds.both {p q : R → Prop} {result : FilterResult × FilterCombiner α E F}
    {f : FilterCombiner α E F → FilterResult × FilterCombiner α E F} (h : Adds context combiner p result)
    (hadd : Keeps context combiner p result.2 → Adds context result.2 q (f result.2)) :
    Adds context combiner (fun row => p row ∧ q row) (if result.1 ≠ .success then result else f result.2) := by
  obtain ⟨result, combiner'⟩ := result
  cases result with
  | unsatisfiable => exact fun row hhld hpq => h row hhld hpq.1
  | unsupported => exact h.imp fun _ _ => And.left
  | success =>
    obtain ⟨hkeep, hp⟩ := h
    refine Adds.after (hkeep.imp fun _ _ => And.left) ((hadd hkeep).congr ?_)
    exact fun row hhld => ⟨fun hq => ⟨hp row hhld, hq⟩, And.right⟩

theorem addFilter_ne_unsupported (context : FilterContext α E F R) (expr : FilterConjunct α E F)
    (combiner : FilterCombiner α E F) : (addFilter context expr combiner).1 ≠ .unsupported := by
  rw [addFilter]
  cases addExpression context expr combiner with
  | mk result combiner' => cases result <;> exact nofun

/-- What `addBetween` does after the lower bound. -/
def addUpper (context : FilterContext α E F R) (equivalenceSet : ℕ) (input upper : FilterOperand α E)
    (upperInclusive : Bool) (combiner : FilterCombiner α E F) : FilterResult × FilterCombiner α E F :=
  match upper.scalar? with
  | some constant => combiner.addConstant equivalenceSet constant (lessThanType upperInclusive)
  | none => combiner.addBoundComparisonFilter context ⟨lessThanType upperInclusive, input, upper⟩

theorem addBetween_adds (h : combiner.Inv) {input lower upper : FilterOperand α E}
    {lowerInclusive upperInclusive : Bool}
    (hscalar : lower.scalar?.isSome = true ∨ upper.scalar?.isSome = true)
    (hbds : FilterConjunct.MatchingBounds
      (.between input lower upper lowerInclusive upperInclusive : FilterConjunct α E F)) :
    Adds context combiner
      (fun row => FilterConjunct.IsTrue context
        (.between input lower upper lowerInclusive upperInclusive : FilterConjunct α E F) row)
      (addBetween context input lower upper lowerInclusive upperInclusive combiner) := by
  obtain ⟨hkeep, hinput⟩ := getEquivalenceSet_keeps context h input
    (fun row => FilterConjunct.IsTrue context
      (.between input lower upper lowerInclusive upperInclusive : FilterConjunct α E F) row)
  set inputSet := combiner.getEquivalenceSet input
  refine Adds.after hkeep (Adds.both (f := addUpper context inputSet.1 input upper upperInclusive) ?_ ?_)
  · cases lower with
    | boundConstant constant =>
      exact addConstant_adds context hkeep.inv hinput (isSupported_greaterThanType _) constant
    | expression lower =>
      cases input with
      | expression input =>
        -- A comparison of two expressions is not supported.
        have hunsupported : addBoundComparisonFilter context
            ⟨lessThanType upperInclusive, .expression lower, .expression input⟩ inputSet.2 =
              (.unsupported, inputSet.2) := by
          cases upperInclusive <;> rfl
        rw [hunsupported]
        exact .refl hkeep.inv
      | boundConstant constant =>
        obtain ⟨constant', hup⟩ := isSome_iff_exists.1 (hscalar.resolve_left Bool.false_ne_true)
        cases eq_boundConstant hup
        cases (hbds : lowerInclusive = upperInclusive)
        refine (addBoundComparisonFilter_adds hkeep.inv
          ⟨lessThanType lowerInclusive, .expression lower, .boundConstant constant⟩).congr fun row _ => ?_
        rw [← isTrue_flip]
        cases lowerInclusive <;> rfl
  · intro hadd
    cases upper with
    | boundConstant constant =>
      exact addConstant_adds context hadd.inv (hadd.grows _ hinput) (isSupported_lessThanType _) constant
    | expression upper =>
      exact addBoundComparisonFilter_adds hadd.inv ⟨lessThanType upperInclusive, input, .expression upper⟩

variable {expr : FilterConjunct α E F}

omit [DecidableEq E] in
theorem scalar?_iff {passes : Bool} (h : expr.scalar? = some passes) : passes = true ↔ expr.IsTrue context row := by
  match expr with
  | .comparison ⟨comparisonType, .boundConstant left, .boundConstant right⟩
  | .between (.boundConstant input) (.boundConstant lower) (.boundConstant upper) lowerInclusive upperInclusive
  | .scalar value =>
    rw [← some.inj h, decide_eq_true_iff]
    rfl
  | .other expr => exact nomatch h

section

variable (context : FilterContext α E F R) (h : combiner.Inv) (hbds : expr.MatchingBounds)

include h hbds

theorem addExpression_adds :
    Adds context combiner (fun row => expr.IsTrue context row) (addExpression context expr combiner) := by
  rw [addExpression.eq_def]
  cases hscalar : expr.scalar? with
  | some passes =>
    dsimp only
    split_ifs with hpass
    · exact .of_implied h fun row _ => (scalar?_iff hscalar).1 hpass
    · exact fun row _ htrue => hpass ((scalar?_iff hscalar).2 htrue)
  | none =>
    cases expr with
    | comparison comparison => exact addBoundComparisonFilter_adds h comparison
    | between input lower upper lowerInclusive upperInclusive =>
      dsimp only
      split_ifs with hsome
      · exact addBetween_adds h hsome hbds
      · exact .refl h
    | scalar value => exact .refl h
    | other expr => exact .refl h

theorem addFilter_adds :
    Adds context combiner (fun row => expr.IsTrue context row) (addFilter context expr combiner) := by
  have hadds := addExpression_adds context h hbds
  rw [addFilter]
  cases hadd : addExpression context expr combiner with
  | mk result combiner' =>
    rw [hadd] at hadds
    cases result with
    | unsatisfiable => exact hadds
    | unsupported => exact .pushRemaining hadds fun _ => Iff.rfl
    | success => exact hadds

end

/-- What adding filters until one is unsatisfiable gives, from any combiner -/
theorem addFilters_spec (context : FilterContext α E F R) {exprs : List (FilterConjunct α E F)} (h : combiner.Inv)
    (hbds : ∀ expr ∈ exprs, expr.MatchingBounds) :
    (addFilters context exprs combiner = none →
      ∀ row, combiner.Holds context row → ¬∀ expr ∈ exprs, expr.IsTrue context row) ∧
    ∀ combiner', addFilters context exprs combiner = some combiner' → combiner'.Inv ∧
      ∀ row, combiner'.Holds context row ↔ combiner.Holds context row ∧ ∀ expr ∈ exprs, expr.IsTrue context row := by
  induction exprs generalizing combiner with
  | nil =>
    refine ⟨(fun hno => nomatch hno), ?_⟩
    intro combiner' hsome
    cases hsome
    exact ⟨h, fun row => (and_iff_left fun _ hexpr => (not_mem_nil hexpr).elim).symm⟩
  | cons expr exprs ih =>
    obtain ⟨hfst, hrst⟩ := forall_mem_cons.1 hbds
    have hadds := addFilter_adds context h hfst
    rw [addFilters]
    cases hadd : addFilter context expr combiner with
    | mk result combiner' =>
      rw [hadd] at hadds
      cases result with
      | unsatisfiable =>
        refine ⟨fun _ row hhld hall => hadds row hhld (hall expr mem_cons_self), ?_⟩
        exact fun _ hsome => nomatch hsome
      | unsupported => exact absurd (congrArg Prod.fst hadd) (addFilter_ne_unsupported _ _ _)
      | success =>
        obtain ⟨hkeep, hexpr⟩ := hadds
        have hiff : ∀ row, combiner'.Holds context row ↔ combiner.Holds context row ∧ expr.IsTrue context row :=
          fun row => ⟨fun hhld => ⟨hkeep.sound row hhld, hexpr row hhld⟩,
            fun ⟨hhld, htrue⟩ => hkeep.keeps row hhld htrue⟩
        obtain ⟨hno, hsome⟩ := ih hkeep.inv hrst
        constructor
        · intro hunsat row hhld hall
          obtain ⟨htrue, hall⟩ := forall_mem_cons.1 hall
          exact hno hunsat row ((hiff row).2 ⟨hhld, htrue⟩) hall
        · intro combiner'' hcombiner
          obtain ⟨hinv, hiff'⟩ := hsome combiner'' hcombiner
          refine ⟨hinv, fun row => ?_⟩
          rw [hiff', hiff, forall_mem_cons, and_assoc]

end Sets

/-! ## Generating filters -/

section Generate

variable {entry : FilterOperand α E} {constants : List (ValueInformation α)}

/-- An entry meets a comparison. -/
def InfoTrue (context : FilterContext α E F R) (row : R) (entry : FilterOperand α E) (info : ValueInformation α) :
    Prop :=
  BoundComparison.IsTrue context ⟨info.comparisonType, entry, .boundConstant (some info.constant)⟩ row

variable {lower upper : Option (ValueInformation α)}

/-- The loop sets aside the last lower and upper bound. If there is one of each at most, then nothing is lost. -/
theorem constantFiltersLoop_iff (h : NormalInfos constants)
    (hlow : ∀ l ∈ lower, ∀ info ∈ constants, ¬info.comparisonType.isGreaterThan = true)
    (hup : ∀ u ∈ upper, ∀ info ∈ constants, ¬info.comparisonType.isLessThan = true) :
    ((∀ filter ∈ (constantFiltersLoop (F := F) entry constants lower upper).1, filter.IsTrue context row) ∧
        (∀ l ∈ (constantFiltersLoop (F := F) entry constants lower upper).2.1, InfoTrue context row entry l) ∧
        ∀ u ∈ (constantFiltersLoop (F := F) entry constants lower upper).2.2, InfoTrue context row entry u) ↔
      (∀ info ∈ constants, InfoTrue context row entry info) ∧ (∀ l ∈ lower, InfoTrue context row entry l) ∧
        ∀ u ∈ upper, InfoTrue context row entry u := by
  induction constants generalizing lower upper with
  | nil => exact and_congr_left' (iff_of_true nofun nofun)
  | cons info constants ih =>
    obtain ⟨⟨-, hsides⟩, hrst⟩ := normalInfos_cons.1 h
    have hlow' : ∀ l ∈ lower, ∀ info ∈ constants, ¬info.comparisonType.isGreaterThan = true :=
      fun l hl => (forall_mem_cons.1 (hlow l hl)).2
    have hup' : ∀ u ∈ upper, ∀ info ∈ constants, ¬info.comparisonType.isLessThan = true :=
      fun u hu => (forall_mem_cons.1 (hup u hu)).2
    rw [constantFiltersLoop, forall_mem_cons]
    split_ifs with hgr hless
    · have hno : lower = none := by
        cases lower with
        | none => rfl
        | some l => exact absurd hgr (hlow l rfl info mem_cons_self)
      rw [ih hrst (fun _ _ other hoth hside => hsides other hoth (.inl ⟨hgr, hside⟩)) hup', hno]
      simp only [mem_some_iff, forall_eq']
      tauto
    · have hno : upper = none := by
        cases upper with
        | none => rfl
        | some u => exact absurd hless (hup u rfl info mem_cons_self)
      rw [ih hrst hlow' (fun _ _ other hoth hside => hsides other hoth (.inr ⟨hless, hside⟩)), hno]
      simp only [mem_some_iff, forall_eq']
      tauto
    · have hloop := ih hrst hlow' hup'
      simp only [Prod.map_fst, Prod.map_snd, id_eq, forall_mem_cons]
      rw [and_assoc, hloop, and_assoc]
      rfl

section

variable (hlow : ∀ l ∈ lower, l.comparisonType.isGreaterThan = true)
  (hup : ∀ u ∈ upper, u.comparisonType.isLessThan = true)

include hlow hup

omit [LinearOrder α] in
variable (F entry constants) in
/-- The bounds that the loop returns are bounds. -/
theorem constantFiltersLoop_types :
    (∀ l ∈ (constantFiltersLoop (F := F) entry constants lower upper).2.1, l.comparisonType.isGreaterThan = true) ∧
      ∀ u ∈ (constantFiltersLoop (F := F) entry constants lower upper).2.2, u.comparisonType.isLessThan = true := by
  induction constants generalizing lower upper with
  | nil => exact ⟨hlow, hup⟩
  | cons info constants ih =>
    rw [constantFiltersLoop]
    split_ifs with hgr hless
    · exact ih (fun l hl => some.inj hl ▸ hgr) hup
    · exact ih hlow fun u hu => some.inj hu ▸ hless
    · exact ih hlow hup

theorem boundFilters_iff :
    (∀ filter ∈ (boundFilters entry lower upper : List (FilterConjunct α E F)), filter.IsTrue context row) ↔
      (∀ l ∈ lower, InfoTrue context row entry l) ∧ ∀ u ∈ upper, InfoTrue context row entry u := by
  have hlowerType : ∀ {type : ComparisonType}, type.isGreaterThan = true →
      greaterThanType (type = .greaterThanOrEqualTo) = type := by
    intro type
    cases type <;> decide
  have hupperType : ∀ {type : ComparisonType}, type.isLessThan = true →
      lessThanType (type = .lessThanOrEqualTo) = type := by
    intro type
    cases type <;> decide
  cases lower with
  | none =>
    cases upper with
    | none => simp [boundFilters]
    | some u => simp [boundFilters, InfoTrue, FilterConjunct.IsTrue]
  | some l =>
    cases upper with
    | none => simp [boundFilters, InfoTrue, FilterConjunct.IsTrue]
    | some u =>
      simp [boundFilters, InfoTrue, FilterConjunct.IsTrue, hlowerType (hlow l rfl), hupperType (hup u rfl)]

end

theorem constantFilters_iff (h : NormalInfos constants) :
    (∀ filter ∈ (constantFilters constants entry : List (FilterConjunct α E F)), filter.IsTrue context row) ↔
      ∀ info ∈ constants, InfoTrue context row entry info := by
  have hno : ∀ {p : ValueInformation α → Prop}, ∀ info ∈ (none : Option (ValueInformation α)), p info := nofun
  obtain ⟨hlow, hup⟩ := constantFiltersLoop_types F entry constants hno hno
  rw [constantFilters, forall_mem_append, boundFilters_iff hlow hup, constantFiltersLoop_iff h hno hno]
  exact and_iff_left ⟨hno, hno⟩

theorem setFilters_iff (h : NormalInfos constants) (entries : List (FilterOperand α E)) :
    (∀ filter ∈ (setFilters constants entries : List (FilterConjunct α E F)), filter.IsTrue context row) ↔
      SetHolds context row entries constants := by
  have hinfos : ∀ entry : FilterOperand α E, (∀ info ∈ constants, InfoTrue context row entry info) ↔
      ∀ info ∈ constants, ∃ v, entry.evaluate context row = some v ∧ info.Holds v :=
    fun entry => forall₂_congr fun info hinf => isTrue_info (h.supported info hinf)
  induction entries with
  | nil => exact iff_of_true nofun ⟨.nil, nofun⟩
  | cons entry entries ih =>
    have heql : (∀ filter ∈ entries.map fun other => (FilterConjunct.comparison ⟨.equal, entry, other⟩ :
        FilterConjunct α E F), filter.IsTrue context row) ↔
          ∀ other ∈ entries, entry.SameValue context row other := by
      rw [List.forall_mem_map]
      exact forall₂_congr fun other _ => isTrue_equal
    rw [setFilters, List.forall_mem_append, List.forall_mem_append, heql, constantFilters_iff h, hinfos]
    refine (and_congr_right' ih).trans ?_
    constructor
    · rintro ⟨⟨heql, hconsts⟩, hset⟩
      exact ⟨List.pairwise_cons.2 ⟨heql, hset.equal⟩, List.forall_mem_cons.2 ⟨hconsts, hset.constants⟩⟩
    · rintro ⟨hpw, hconsts⟩
      obtain ⟨heql, hpw⟩ := List.pairwise_cons.1 hpw
      obtain ⟨hfst, hconsts⟩ := List.forall_mem_cons.1 hconsts
      exact ⟨⟨heql, hfst⟩, hpw, hconsts⟩

/-- The filters that are generated say what the combiner says. -/
theorem generateFilters_iff {combiner : FilterCombiner α E F} (h : combiner.Inv) :
    (∀ filter ∈ combiner.generateFilters, filter.IsTrue context row) ↔ combiner.Holds context row := by
  rw [generateFilters, forall_mem_append]
  constructor
  · rintro ⟨hrem, hsets⟩
    refine ⟨hrem, fun index => ?_⟩
    by_cases hidx : index < combiner.setIndex
    · refine (setFilters_iff (h.normal index) _).1 fun filter hfilt => hsets filter ?_
      exact mem_flatMap.2 ⟨index, mem_range.2 hidx, hfilt⟩
    · rw [(h.fresh index (not_lt.1 hidx)).1]
      exact ⟨.nil, nofun⟩
  · rintro ⟨hrem, hsets⟩
    refine ⟨hrem, fun filter hfilt => ?_⟩
    obtain ⟨index, -, hmem⟩ := mem_flatMap.1 hfilt
    exact (setFilters_iff (h.normal index) _).2 (hsets index) filter hmem

end Generate

/-! ## Runs -/

omit [LinearOrder α] in
theorem inv_empty : Inv (empty : FilterCombiner α E F) :=
  ⟨(fun _ _ h => nomatch h), fun _ _ => ⟨rfl, rfl⟩, fun _ => .nil⟩

theorem holds_empty : Holds context (empty : FilterCombiner α E F) row := ⟨nofun, fun _ => ⟨.nil, nofun⟩⟩

end FilterCombiner

section Preserves

variable [DecidableEq E]

/-- Adding conjuncts to a combiner preserves what they say: if none is unsatisfiable, the rows that meet them are
    those that meet the filters generated. -/
def PreservesFilters (context : FilterContext α E F R) (conjuncts : List (FilterConjunct α E F)) : Prop :=
  match FilterCombiner.addFilters context conjuncts .empty with
  | none => ∀ row, ¬∀ conjunct ∈ conjuncts, conjunct.IsTrue context row
  | some combiner => ∀ row, (∀ filter ∈ combiner.generateFilters, filter.IsTrue context row) ↔
      ∀ conjunct ∈ conjuncts, conjunct.IsTrue context row

/-- Conjuncts are preserved, unless a BETWEEN of a constant has a lower bound that is compared as the upper one. -/
theorem preserves_of_matchingBounds (context : FilterContext α E F R) {conjuncts : List (FilterConjunct α E F)}
    (h : ∀ conjunct ∈ conjuncts, conjunct.MatchingBounds) : PreservesFilters context conjuncts := by
  obtain ⟨hno, hsome⟩ := FilterCombiner.addFilters_spec context FilterCombiner.inv_empty h
  rw [PreservesFilters]
  cases hadd : FilterCombiner.addFilters context conjuncts .empty with
  | none => exact fun row => hno hadd row FilterCombiner.holds_empty
  | some combiner =>
    obtain ⟨hinv, hiff⟩ := hsome combiner hadd
    intro row
    rw [FilterCombiner.generateFilters_iff hinv, hiff]
    exact and_iff_right FilterCombiner.holds_empty

end Preserves

/-- One column, and no other expressions -/
def columnContext : FilterContext ℕ Unit Empty (Option ℕ) where
  value _ row := row
  holds := nofun
  isColumnRef _ := true
  sameType _ _ := true

theorem preservesFilters_bounds : PreservesFilters columnContext
    [.comparison ⟨.greaterThan, .expression (), .boundConstant (some 3)⟩,
      .between (.expression ()) (.boundConstant (some 2)) (.boundConstant (some 10)) true false] :=
  preserves_of_matchingBounds columnContext (by simp [FilterConjunct.MatchingBounds])

/-- `5 BETWEEN a AND 10`, where `a` is not included, becomes `a <= 5` and `5 <= 10`. -/
theorem not_preserves_between : ¬∀ conjuncts, PreservesFilters columnContext conjuncts := by
  intro hall
  have h := hall [.between (.boundConstant (some 5)) (.expression ()) (.boundConstant (some 10)) false true]
  have hfilts : (FilterCombiner.addFilters columnContext
      [.between (.boundConstant (some 5)) (.expression ()) (.boundConstant (some 10)) false true]
      .empty).map FilterCombiner.generateFilters = some
        [.comparison ⟨.lessThanOrEqualTo, .boundConstant (some 5), .boundConstant (some 10)⟩,
          .comparison ⟨.lessThanOrEqualTo, .expression (), .boundConstant (some 5)⟩] := by
    decide
  rw [PreservesFilters] at h
  cases hadd : FilterCombiner.addFilters columnContext
      [.between (.boundConstant (some 5)) (.expression ()) (.boundConstant (some 10)) false true] .empty with
  | none => simp [hadd] at hfilts
  | some combiner =>
    rw [hadd, map_some, some.injEq] at hfilts
    rw [hadd] at h
    dsimp only at h
    rw [hfilts] at h
    have hrow := (h (some 5)).1 (by
      simp [FilterConjunct.IsTrue, BoundComparison.IsTrue, FilterOperand.evaluate, ComparisonType.evaluate,
        ComparisonType.holds, columnContext])
    simp [FilterConjunct.IsTrue, BoundComparison.IsTrue, FilterOperand.evaluate, ComparisonType.evaluate,
      ComparisonType.holds, columnContext, greaterThanType] at hrow

end WfOpt

import WfOpt.Optimizer.EquivalenceSets

/-!
# Transitive filters

A comparison of two columns gives comparisons of its left side with the constants of its right side. It is dropped
only if the right side is equal to a constant, and is put back if nothing was inferred from it
(`addTransitiveFilters_adds`).
-/

namespace WfOpt

open List

variable {α E F R : Type} [LinearOrder α] {context : FilterContext α E F R} {row : R}

namespace FilterCombiner

section Sets

variable [DecidableEq E] {combiner : FilterCombiner α E F}

/-! ## Transitive filters -/

omit [DecidableEq E] in
theorem holds_pushRemaining (filter : FilterConjunct α E F) :
    Holds context (combiner.pushRemaining filter) row ↔ Holds context combiner row ∧ filter.IsTrue context row := by
  constructor
  · rintro ⟨hrem, hsets⟩
    obtain ⟨hrem, hfilt⟩ := forall_mem_append.1 hrem
    exact ⟨⟨hrem, hsets⟩, hfilt filter (mem_singleton_self _)⟩
  · rintro ⟨⟨hrem, hsets⟩, hfilt⟩
    exact ⟨forall_mem_append.2 ⟨hrem, forall_mem_singleton.2 hfilt⟩, hsets⟩

omit [DecidableEq E] in
theorem pushRemaining_keeps (h : combiner.Inv) (filter : FilterConjunct α E F) :
    Keeps context combiner (fun row => filter.IsTrue context row) (combiner.pushRemaining filter) where
  inv := ⟨h.mem, h.fresh, h.normal⟩
  grows _ := List.Subset.refl _
  keeps _ hhld htrue := (holds_pushRemaining filter).2 ⟨hhld, htrue⟩
  sound _ hhld := ((holds_pushRemaining filter).1 hhld).1

omit [DecidableEq E] in
/-- A filter that is not supported is added when it is kept with the remaining ones. -/
theorem Adds.pushRemaining {combiner' : FilterCombiner α E F} {p : R → Prop} {filter : FilterConjunct α E F}
    (h : Keeps context combiner p combiner') (hp : ∀ row, p row ↔ filter.IsTrue context row) :
    Adds context combiner p (.success, combiner'.pushRemaining filter) := by
  refine ⟨h.trans ((pushRemaining_keeps h.inv filter).imp fun row _ => (hp row).1), ?_⟩
  intro row hhld
  exact (hp row).2 ((holds_pushRemaining filter).1 hhld).2

section Transitive

variable {comparisonType rightType infoType : ComparisonType} {keep : Bool}

/-- The comparison of the left side follows from the filter and the comparison of the right side. -/
theorem holds_of_transitiveType (h : transitiveType comparisonType rightType = some (infoType, keep)) {x y c : α}
    (hxy : comparisonType.holds x y = true) (hyc : rightType.holds y c = true) : infoType.holds x c = true := by
  rw [transitiveType] at h
  split_ifs at h with heql hor hand
  · cases h
    subst heql
    rw [ComparisonType.holds_equal] at hyc
    exact hyc ▸ hxy
  · cases h
    rcases hor with ⟨rfl, hrt⟩ | ⟨rfl, hrt⟩
    · rcases Bool.or_eq_true_iff.1 hrt with hr | hr <;> cases of_decide_eq_true hr <;>
        simp only [ComparisonType.holds_greaterThan, ComparisonType.holds_greaterThanOrEqualTo] at hxy hyc ⊢
      · exact hyc.trans_le hxy
      · exact hyc.trans hxy
    · rcases Bool.or_eq_true_iff.1 hrt with hr | hr <;> cases of_decide_eq_true hr <;>
        simp only [ComparisonType.holds_lessThan, ComparisonType.holds_lessThanOrEqualTo] at hxy hyc ⊢
      · exact hxy.trans_lt hyc
      · exact hxy.trans hyc
  · cases h
    rcases hand with ⟨rfl, hrt⟩ | ⟨rfl, hrt⟩
    · rcases Bool.or_eq_true_iff.1 hrt with hr | hr <;> cases of_decide_eq_true hr <;>
        simp only [ComparisonType.holds_greaterThan, ComparisonType.holds_greaterThanOrEqualTo] at hxy hyc ⊢
      · exact hyc.trans hxy
      · exact hyc.trans_lt hxy
    · rcases Bool.or_eq_true_iff.1 hrt with hr | hr <;> cases of_decide_eq_true hr <;>
        simp only [ComparisonType.holds_lessThan, ComparisonType.holds_lessThanOrEqualTo] at hxy hyc ⊢
      · exact hxy.trans hyc
      · exact hxy.trans_le hyc

/-- Only a filter whose right side is a constant is not kept. -/
theorem equal_of_transitiveType (h : transitiveType comparisonType rightType = some (infoType, false)) :
    rightType = .equal ∧ infoType = comparisonType := by
  rw [transitiveType] at h
  split_ifs at h with heql hor hand
  · cases h
    exact ⟨heql, rfl⟩
  · exact nomatch h
  · exact nomatch h

theorem isSupported_of_transitiveType (h : transitiveType comparisonType rightType = some (infoType, keep))
    (hcmpn : comparisonType.isSupported = true) (hrt : rightType.isSupported = true) :
    infoType.isSupported = true := by
  rw [transitiveType] at h
  split_ifs at h with heql hor hand <;> cases h
  · exact hcmpn
  · exact hrt
  · exact hcmpn

end Transitive

omit [DecidableEq E] in
/-- The loop over the constants of the right side. A filter inserted or used with an equality need not be put back. -/
theorem addTransitiveLoop_adds (context : FilterContext α E F R) {comparison : BoundComparison α E}
    (htype : comparison.comparisonType.isSupported = true) {leftEquivalenceSet : ℕ}
    {rightConstants : List (ValueInformation α)}
    (hsup : ∀ info ∈ rightConstants, info.comparisonType.isSupported = true) {isInserted isSuccessful : Bool}
    (h : combiner.Inv) (hlft : comparison.left ∈ combiner.equivalenceMap leftEquivalenceSet)
    (hrt : ∀ info ∈ rightConstants, ∀ row, combiner.Holds context row →
      ∃ v, comparison.right.evaluate context row = some v ∧ info.Holds v)
    (hinsd : isInserted = true → ∀ row, combiner.Holds context row → comparison.IsTrue context row)
    (hsuccessful : isSuccessful = true → ∀ row, combiner.Holds context row → comparison.IsTrue context row) :
    Adds context combiner (fun row => comparison.IsTrue context row)
      (addTransitiveLoop comparison leftEquivalenceSet rightConstants isInserted isSuccessful combiner) := by
  induction rightConstants generalizing isInserted isSuccessful combiner with
  | nil =>
    rw [addTransitiveLoop]
    cases isSuccessful with
    | true => exact .of_implied h (hsuccessful rfl)
    | false => exact .refl h
  | cons rightConstant rightConstants ih =>
    obtain ⟨hsupp, hsup⟩ := forall_mem_cons.1 hsup
    obtain ⟨hfst, hrst⟩ := forall_mem_cons.1 hrt
    rw [addTransitiveLoop]
    cases htrans : transitiveType comparison.comparisonType rightConstant.comparisonType with
    | none => exact ih hsup h hlft hrst hinsd hsuccessful
    | some inferred =>
      obtain ⟨infoType, keep⟩ := inferred
      dsimp only
      -- The filter is among the remaining ones, if it has to be kept.
      obtain ⟨combiner', hcombiner', hkeeps, hkept⟩ : ∃ combiner',
          (if (keep && !isInserted) = true then combiner.pushRemaining (.comparison comparison) else combiner) =
            combiner' ∧
          Keeps context combiner (fun row => comparison.IsTrue context row) combiner' ∧
          (keep = true → ∀ row, combiner'.Holds context row → comparison.IsTrue context row) := by
        refine ⟨_, rfl, ?_⟩
        cases keep with
        | false => exact ⟨.refl h, fun hkeep => nomatch hkeep⟩
        | true =>
          cases isInserted with
          | true => exact ⟨.refl h, fun _ => hinsd rfl⟩
          | false =>
            exact ⟨pushRemaining_keeps h (.comparison comparison),
              fun _ row hhld => ((holds_pushRemaining (.comparison comparison)).1 hhld).2⟩
      rw [hcombiner']
      have hadds := addConstant_adds context hkeeps.inv (hkeeps.grows leftEquivalenceSet hlft)
        (isSupported_of_transitiveType htrans htype hsupp) (some rightConstant.constant)
      -- What is inferred for the left side follows from the filter.
      have hinferred : ∀ row, combiner'.Holds context row → comparison.IsTrue context row →
          BoundComparison.IsTrue context
            ⟨infoType, comparison.left, .boundConstant (some rightConstant.constant)⟩ row := by
        intro row hhld htrue
        obtain ⟨x, y, hx, hy, hxy⟩ := (isTrue_iff htype).1 htrue
        obtain ⟨w, hw, hinf⟩ := hfst row (hkeeps.sound row hhld)
        rw [hy, Option.some.injEq] at hw
        subst hw
        exact (isTrue_iff (isSupported_of_transitiveType htrans htype hsupp)).2
          ⟨x, _, hx, rfl, holds_of_transitiveType htrans hxy hinf⟩
      refine Adds.after hkeeps ?_
      cases hres : combiner'.addConstant leftEquivalenceSet (some rightConstant.constant) infoType with
      | mk result combiner'' =>
        rw [hres] at hadds
        cases result with
        | unsupported =>
          exact absurd (congrArg Prod.fst hres) (addConstantComparison_ne_unsupported _ _ _)
        | unsatisfiable => exact fun row hhld htrue => hadds row hhld (hinferred row hhld htrue)
        | success =>
          obtain ⟨hadd, hinf⟩ := hadds
          have hkeep' := hadd.imp (q := fun row => comparison.IsTrue context row) hinferred
          refine Adds.after hkeep' (ih hsup hkeep'.inv
            (hkeep'.grows leftEquivalenceSet (hkeeps.grows leftEquivalenceSet hlft)) ?_ ?_ ?_)
          · intro info hmem row hhld
            exact hrst info hmem row (hkeeps.sound row (hkeep'.sound row hhld))
          · intro hor row hhld
            have hhld' := hkeep'.sound row hhld
            rcases Bool.or_eq_true_iff.1 hor with h | h
            · exact hinsd h row (hkeeps.sound row hhld')
            · exact hkept h row hhld'
          · intro _ row hhld
            have hhld' := hkeep'.sound row hhld
            cases keep with
            | true => exact hkept rfl row hhld'
            | false =>
              -- The right side is the constant, and the left side is compared with that.
              obtain ⟨heql, rfl⟩ := equal_of_transitiveType htrans
              obtain ⟨x, c, hx, hc, hxc⟩ := (isTrue_iff htype).1 (hinf row hhld)
              obtain ⟨v, hv, hvc⟩ := hfst row (hkeeps.sound row hhld')
              rw [ValueInformation.Holds, heql, ComparisonType.holds_equal] at hvc
              cases hc
              exact (isTrue_iff htype).2 ⟨x, v, hx, hv, hvc ▸ hxc⟩

/-! ### Filters that are found again -/

theorem findTransitiveLoop_spec {expr : FilterOperand α E} {filters rest : List (FilterConjunct α E F)}
    {filter : BoundComparison α E} (h : findTransitiveLoop expr filters = some (filter, rest)) :
    (∀ other ∈ filters, other.IsTrue context row) ↔
      (∀ other ∈ rest, other.IsTrue context row) ∧ filter.IsTrue context row := by
  -- A filter that is passed stays in front of the rest.
  have hpass : ∀ {first : FilterConjunct α E F} {filters rest : List (FilterConjunct α E F)},
      (findTransitiveLoop expr filters).map (Prod.map id (first :: ·)) = some (filter, rest) →
      ∃ rest', findTransitiveLoop expr filters = some (filter, rest') ∧ rest = first :: rest' := by
    intro first filters rest h
    obtain ⟨⟨filter', rest'⟩, hfnd, heq⟩ := Option.map_eq_some_iff.1 h
    cases heq
    exact ⟨rest', hfnd, rfl⟩
  induction filters generalizing rest with
  | nil => exact nomatch h
  | cons first filters ih =>
    have hcons : ∀ rest', findTransitiveLoop expr filters = some (filter, rest') → rest = first :: rest' →
        ((∀ other ∈ first :: filters, other.IsTrue context row) ↔
          (∀ other ∈ rest, other.IsTrue context row) ∧ filter.IsTrue context row) := by
      intro rest' hfnd hrst
      rw [hrst, forall_mem_cons, forall_mem_cons]
      exact (and_congr_right' (ih hfnd)).trans and_assoc.symm
    cases first with
    | comparison comparison =>
      rw [findTransitiveLoop] at h
      split_ifs at h with hfilt
      · cases h
        rw [forall_mem_cons, and_comm]
        rfl
      · obtain ⟨rest', hfnd, hrst⟩ := hpass h
        exact hcons rest' hfnd hrst
    | between input lower upper lowerInclusive upperInclusive | scalar value | other expr =>
      obtain ⟨rest', hfnd, hrst⟩ := hpass h
      exact hcons rest' hfnd hrst

/-- The filter that is found is what the combiner no longer says. -/
theorem findTransitiveFilter_spec (h : combiner.Inv) {expr : FilterOperand α E} {filter : BoundComparison α E}
    {combiner' : FilterCombiner α E F}
    (hfind : findTransitiveFilter context combiner expr = some (filter, combiner')) :
    combiner'.Inv ∧ combiner'.equivalenceMap = combiner.equivalenceMap ∧
      ∀ row, combiner.Holds context row ↔ combiner'.Holds context row ∧ filter.IsTrue context row := by
  cases expr with
  | boundConstant value => exact nomatch hfind
  | expression expr =>
    rw [findTransitiveFilter] at hfind
    split_ifs at hfind with hcolumn
    obtain ⟨⟨filter', rest⟩, hfnd, heq⟩ := Option.map_eq_some_iff.1 hfind
    cases heq
    refine ⟨⟨h.mem, h.fresh, h.normal⟩, rfl, ?_⟩
    intro row
    constructor
    · rintro ⟨hrem, hsets⟩
      obtain ⟨hrst, hfilt⟩ := (findTransitiveLoop_spec hfnd).1 hrem
      exact ⟨⟨hrst, hsets⟩, hfilt⟩
    · rintro ⟨⟨hrst, hsets⟩, hfilt⟩
      exact ⟨(findTransitiveLoop_spec hfnd).2 ⟨hrst, hfilt⟩, hsets⟩

/-- A filter that is found is added or put back, if what adds it is right. -/
theorem addFoundFilter_adds (context : FilterContext α E F R)
    {add : BoundComparison α E → FilterCombiner α E F → FilterResult × FilterCombiner α E F}
    (hadd : ∀ (filter : BoundComparison α E) (combiner : FilterCombiner α E F), combiner.Inv →
      Adds context combiner (fun row => filter.IsTrue context row) (add filter combiner))
    (h : combiner.Inv) (expr : FilterOperand α E) :
    Adds context combiner (fun _ => True) (addFoundFilter context add expr combiner) := by
  rw [addFoundFilter]
  cases hfind : findTransitiveFilter context combiner expr with
  | none => exact .of_implied h fun _ _ => trivial
  | some found =>
    obtain ⟨filter, combiner'⟩ := found
    obtain ⟨hinv, hmap, hiff⟩ := findTransitiveFilter_spec h hfind
    -- What is added with the filter says what was said before.
    have hback : ∀ combiner'', Keeps context combiner' (fun row => filter.IsTrue context row) combiner'' →
        (∀ row, combiner''.Holds context row → filter.IsTrue context row) →
        Adds context combiner (fun _ => True) (.success, combiner'') := by
      intro combiner'' hkeep hfilt
      refine ⟨⟨hkeep.inv, fun index => hmap ▸ hkeep.grows index, ?_, ?_⟩, fun _ _ => trivial⟩
      · intro row hhld _
        exact hkeep.keeps row ((hiff row).1 hhld).1 ((hiff row).1 hhld).2
      · intro row hhld
        exact (hiff row).2 ⟨hkeep.sound row hhld, hfilt row hhld⟩
    have hadds := hadd filter combiner' hinv
    dsimp only
    cases hres : add filter combiner' with
    | mk result combiner'' =>
      rw [hres] at hadds
      cases result with
      | unsatisfiable => exact fun row hhld _ => hadds row ((hiff row).1 hhld).1 ((hiff row).1 hhld).2
      | success => exact hback combiner'' hadds.1 hadds.2
      | unsupported =>
        have hpushed : Adds context combiner' (fun row => filter.IsTrue context row)
            (.success, combiner''.pushRemaining (.comparison filter)) := .pushRemaining hadds fun _ => Iff.rfl
        exact hback _ hpushed.1 hpushed.2

theorem addTransitive_adds {onSuccess : FilterCombiner α E F → FilterResult × FilterCombiner α E F}
    (honSuccess : ∀ combiner : FilterCombiner α E F, combiner.Inv →
      Adds context combiner (fun _ => True) (onSuccess combiner))
    (h : combiner.Inv) (comparison : BoundComparison α E) :
    Adds context combiner (fun row => comparison.IsTrue context row)
      (addTransitive onSuccess comparison combiner) := by
  obtain ⟨comparisonType, left, right⟩ := comparison
  rw [addTransitive]
  dsimp only
  by_cases hbd : ¬comparisonType.isGreaterThan ∧ ¬comparisonType.isLessThan
  · rw [if_pos hbd]
    exact .refl h
  rw [if_neg hbd]
  by_cases hsm : left = right
  · rw [if_pos hsm]
    exact .refl h
  rw [if_neg hsm]
  have htype : comparisonType.isSupported = true := by
    revert hbd
    cases comparisonType <;> decide
  obtain ⟨hkeep, hlft⟩ := getEquivalenceSet_keeps context h left
    (BoundComparison.IsTrue context ⟨comparisonType, left, right⟩)
  set leftSet := combiner.getEquivalenceSet left
  obtain ⟨hkeep', hrt⟩ := getEquivalenceSet_keeps context hkeep.inv right
    (BoundComparison.IsTrue context ⟨comparisonType, left, right⟩)
  set rightSet := leftSet.2.getEquivalenceSet right
  refine Adds.after (hkeep.trans hkeep') ?_
  by_cases hsets : leftSet.1 = rightSet.1
  · rw [if_pos hsets]
    -- The sides are equal, and not `NULL`.
    have heql : ∀ row, rightSet.2.Holds context row → left.SameValue context row right := by
      intro row hhld
      have hmem := hsets ▸ hkeep'.grows leftSet.1 hlft
      exact (hhld.sets rightSet.1).equal.forall hmem hrt hsm
    by_cases hstr : comparisonType = .greaterThan ∨ comparisonType = .lessThan
    · rw [if_pos hstr]
      intro row hhld htrue
      obtain ⟨v, hv, hv'⟩ := heql row hhld
      obtain ⟨x, y, hx, hy, hxy⟩ := (isTrue_iff htype).1 htrue
      rw [hv, Option.some.injEq] at hx
      rw [hv', Option.some.injEq] at hy
      subst hx hy
      rcases hstr with rfl | rfl
      · exact lt_irrefl _ (ComparisonType.holds_greaterThan.1 hxy)
      · exact lt_irrefl _ (ComparisonType.holds_lessThan.1 hxy)
    · rw [if_neg hstr]
      refine .of_implied hkeep'.inv ?_
      intro row hhld
      obtain ⟨v, hv, hv'⟩ := heql row hhld
      refine (isTrue_iff htype).2 ⟨v, v, hv, hv', ?_⟩
      cases comparisonType <;> simp [ComparisonType.isGreaterThan, ComparisonType.isLessThan] at hbd hstr ⊢
      · exact ComparisonType.holds_lessThanOrEqualTo.2 le_rfl
      · exact ComparisonType.holds_greaterThanOrEqualTo.2 le_rfl
  · rw [if_neg hsets]
    have hloop : Adds context rightSet.2
        (fun row => BoundComparison.IsTrue context ⟨comparisonType, left, right⟩ row)
        (addTransitiveLoop ⟨comparisonType, left, right⟩ leftSet.1 (rightSet.2.constantValues rightSet.1) false false
          rightSet.2) :=
      addTransitiveLoop_adds context htype (hkeep'.inv.normal rightSet.1).supported hkeep'.inv
        (hkeep'.grows leftSet.1 hlft)
        (fun info hinf row hhld => (hhld.sets rightSet.1).constants right hrt info hinf)
        (absurd · Bool.false_ne_true) (absurd · Bool.false_ne_true)
    cases hres : addTransitiveLoop ⟨comparisonType, left, right⟩ leftSet.1
        (rightSet.2.constantValues rightSet.1) false false rightSet.2 with
    | mk result combiner' =>
      rw [hres] at hloop
      cases result with
      | unsatisfiable => exact hloop
      | unsupported => exact hloop
      | success =>
        exact Adds.after hloop.1 ((honSuccess combiner' hloop.1.inv).congr fun row hhld =>
          ⟨fun _ => hloop.2 row hhld, fun _ => trivial⟩)

theorem addTransitiveFilters_adds (h : combiner.Inv) (comparison : BoundComparison α E) :
    Adds context combiner (fun row => comparison.IsTrue context row)
      (addTransitiveFilters context comparison combiner) := by
  refine addTransitive_adds ?_ h comparison
  intro combiner' h'
  refine addFoundFilter_adds context ?_ h' comparison.left
  intro filter combiner'' h''
  exact addTransitive_adds (fun _ hinv => .of_implied hinv fun _ _ => trivial) h'' filter

end Sets

end FilterCombiner

end WfOpt

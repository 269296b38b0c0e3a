import WfOpt.Storage.Statistics

/-!
# Table filters

A table filter is checked against the statistics of a column, to tell whether no value passes it
(`FILTER_ALWAYS_FALSE`) or all do (`FILTER_ALWAYS_TRUE`). The answers are right for values that are not `NULL`. An
`InFilter` that all other values pass is taken to be always true for `NULL` as well, and an `IS DISTINCT FROM` that
none of them passes to be always false (`TableFilter.MissesNull`); otherwise the answers are right
(`TableFilter.right_iff`).
-/

namespace WfOpt

open List

/-! ## Filters -/

/-- `TableFilter`, over a column with values of the type `α` -/
inductive TableFilter (α : Type)
  | constantFilter (comparisonType : ComparisonType) (constant : α)
  | inFilter (values : List α)
  | isNullFilter
  | isNotNullFilter
  | optionalFilter (childFilter : TableFilter α)
  | conjunctionOrFilter (childFilters : List (TableFilter α))
  | conjunctionAndFilter (childFilters : List (TableFilter α))

namespace TableFilter

section Passes

variable {α : Type} [LinearOrder α]

mutual

/-- A value passes the filter (`ToExpression`). -/
def passes : TableFilter α → Option α → Bool
  | .constantFilter comparisonType constant, some value => comparisonType.holds value constant
  | .constantFilter comparisonType _, none => comparisonType = .distinctFrom
  | .inFilter values, some value => values.any fun constant => ComparisonType.equal.holds value constant
  | .inFilter _, none => false
  | .isNullFilter, value => value.isNone
  | .isNotNullFilter, value => value.isSome
  | .optionalFilter childFilter, value => childFilter.passes value
  | .conjunctionOrFilter childFilters, value => passesAny childFilters value
  | .conjunctionAndFilter childFilters, value => passesAll childFilters value

def passesAny : List (TableFilter α) → Option α → Bool
  | [], _ => false
  | filter :: filters, value => filter.passes value || passesAny filters value

def passesAll : List (TableFilter α) → Option α → Bool
  | [], _ => true
  | filter :: filters, value => filter.passes value && passesAll filters value

end

end Passes

mutual

/-- The filters a filter is made of, with the filter itself. -/
def parts {α : Type} : TableFilter α → List (TableFilter α)
  | .constantFilter comparisonType constant => [.constantFilter comparisonType constant]
  | .inFilter values => [.inFilter values]
  | .isNullFilter => [.isNullFilter]
  | .isNotNullFilter => [.isNotNullFilter]
  | .optionalFilter childFilter => .optionalFilter childFilter :: childFilter.parts
  | .conjunctionOrFilter childFilters => .conjunctionOrFilter childFilters :: partsOfList childFilters
  | .conjunctionAndFilter childFilters => .conjunctionAndFilter childFilters :: partsOfList childFilters

def partsOfList {α : Type} : List (TableFilter α) → List (TableFilter α)
  | [] => []
  | filter :: filters => filter.parts ++ partsOfList filters

end

/-! ## The check -/

variable {t : ColumnType}

/-- `ConstantFilter::CheckStatistics` -/
def checkConstantFilter (comparisonType : ComparisonType) (constant : t.Value) (stats : BaseStatistics t) :
    FilterPropagateResult :=
  if !stats.hasNoNull then .filterAlwaysFalse
  else
    let result := t.checkZonemap stats.data comparisonType [constant]
    if result = .filterAlwaysTrue ∧ stats.hasNull then .noPruningPossible else result

/-- `IsNullFilter::CheckStatistics` -/
def checkIsNullFilter (stats : BaseStatistics t) : FilterPropagateResult := if !stats.hasNull then .filterAlwaysFalse
  else if !stats.hasNoNull then .filterAlwaysTrue
  else .noPruningPossible

/-- `IsNotNullFilter::CheckStatistics` -/
def checkIsNotNullFilter (stats : BaseStatistics t) : FilterPropagateResult :=
  if !stats.hasNoNull then .filterAlwaysFalse
  else if !stats.hasNull then .filterAlwaysTrue
  else .noPruningPossible

mutual

/-- `TableFilter::CheckStatistics` -/
def checkStatistics (stats : BaseStatistics t) : TableFilter t.Value → FilterPropagateResult
  | .constantFilter comparisonType constant => checkConstantFilter comparisonType constant stats
  | .inFilter values => t.checkZonemap stats.data .equal values
  | .isNullFilter => checkIsNullFilter stats
  | .isNotNullFilter => checkIsNotNullFilter stats
  | .optionalFilter childFilter => childFilter.checkStatistics stats
  | .conjunctionOrFilter childFilters => checkOr stats childFilters
  | .conjunctionAndFilter childFilters => checkAnd stats .filterAlwaysTrue childFilters

/-- The loop of `ConjunctionOrFilter::CheckStatistics` -/
def checkOr (stats : BaseStatistics t) : List (TableFilter t.Value) → FilterPropagateResult
  | [] => .filterAlwaysFalse
  | filter :: filters =>
    match filter.checkStatistics stats with
    | .noPruningPossible => .noPruningPossible
    | .filterAlwaysTrue => .filterAlwaysTrue
    | .filterAlwaysFalse => checkOr stats filters

/-- The loop of `ConjunctionAndFilter::CheckStatistics` -/
def checkAnd (stats : BaseStatistics t) (result : FilterPropagateResult) :
    List (TableFilter t.Value) → FilterPropagateResult
  | [] => result
  | filter :: filters =>
    let pruneResult := filter.checkStatistics stats
    if pruneResult = .filterAlwaysFalse then .filterAlwaysFalse
    else checkAnd stats (if pruneResult ≠ result then .noPruningPossible else result) filters

end

/-- The answer is right for the values of a column. -/
def Right (stats : BaseStatistics t) (values : List (Option t.Value)) (filter : TableFilter t.Value) : Prop :=
  (filter.checkStatistics stats = .filterAlwaysFalse → ∀ v ∈ values, filter.passes v = false) ∧
    (filter.checkStatistics stats = .filterAlwaysTrue → ∀ v ∈ values, filter.passes v = true)

end TableFilter

/-- The bounds are all the same constant. Those of strings are not compared. -/
def ColumnType.IsExactly : (t : ColumnType) → t.StatsData → t.Value → Prop
  | .integer _ _ => fun d constant =>
    NumericStats.hasMinMax d = true ∧ NumericStats.constantExactRange d.min d.max constant = true
  | .varchar => fun _ _ => False

/-- The filter is checked as if the column had no `NULL`s: an `InFilter` that all other values pass, and an `IS
    DISTINCT FROM` that none passes. -/
def TableFilter.MissesNull {t : ColumnType} (stats : BaseStatistics t) : TableFilter t.Value → Prop
  | .constantFilter .distinctFrom constant =>
    stats.hasNull = true ∧ (stats.hasNoNull = false ∨ t.IsExactly stats.data constant)
  | .inFilter values => stats.hasNull = true ∧ ∃ constant ∈ values, t.IsExactly stats.data constant
  | _ => False

/-! ## Bounds that are all the same -/

namespace ColumnType

variable {t : ColumnType} {d : t.StatsData} {constant : t.Value}

theorem checkZonemap_distinctFrom_iff :
    t.checkZonemap d .distinctFrom [constant] = .filterAlwaysFalse ↔ t.IsExactly d constant := by
  have hsing : t.checkZonemap d .distinctFrom [constant] =
      if t.hasBounds d then t.checkConstant d .distinctFrom constant else .noPruningPossible := by
    rw [checkZonemap, checkConstants]
    cases t.checkConstant d .distinctFrom constant <;> rfl
  rw [hsing]
  cases t with
  | integer lo hi =>
    change (if NumericStats.hasMinMax d then NumericStats.checkConstant .distinctFrom d.min d.max constant else _) =
      _ ↔ _ ∧ _
    have hrng : NumericStats.constantExactRange d.min d.max constant = true →
        NumericStats.constantValueInRange d.min d.max constant = true := by
      intro h
      simp only [NumericStats.constantExactRange, Bool.and_eq_true, decide_eq_true_eq] at h
      simp [NumericStats.constantValueInRange, ← h.1, ← h.2]
    simp only [NumericStats.checkConstant]
    cases NumericStats.hasMinMax d <;> cases hex : NumericStats.constantExactRange d.min d.max constant
    · simp
    · simp
    · cases NumericStats.constantValueInRange d.min d.max constant <;> simp
    · simp [hrng hex]
  | varchar =>
    refine iff_of_false ?_ id
    change (if true then StringStats.checkConstant .distinctFrom d.min d.max constant else _) ≠ _
    simp only [StringStats.checkConstant]
    split_ifs <;> decide

variable {constants : List t.Value}

theorem exists_of_checkConstants {comparisonType : ComparisonType}
    (h : t.checkConstants d comparisonType constants = .filterAlwaysTrue) :
    ∃ c ∈ constants, t.checkConstant d comparisonType c = .filterAlwaysTrue := by
  induction constants with
  | nil => cases h
  | cons c constants ih =>
    rw [checkConstants] at h
    cases hc : t.checkConstant d comparisonType c with
    | noPruningPossible =>
      rw [hc] at h
      cases h
    | filterAlwaysTrue => exact ⟨c, mem_cons_self, hc⟩
    | filterAlwaysFalse =>
      rw [hc] at h
      obtain ⟨c', hc', heq⟩ := ih h
      exact ⟨c', mem_cons_of_mem c hc', heq⟩

theorem checkConstants_of_sure {comparisonType : ComparisonType}
    (hsure : ∀ c ∈ constants, t.checkConstant d comparisonType c ≠ .noPruningPossible) (hc : constant ∈ constants)
    (htrue : t.checkConstant d comparisonType constant = .filterAlwaysTrue) :
    t.checkConstants d comparisonType constants = .filterAlwaysTrue := by
  induction constants with
  | nil => cases hc
  | cons c constants ih =>
    rw [forall_mem_cons] at hsure
    rw [checkConstants]
    cases hcase : t.checkConstant d comparisonType c with
    | noPruningPossible => exact absurd hcase hsure.1
    | filterAlwaysTrue => rfl
    | filterAlwaysFalse =>
      rcases mem_cons.1 hc with rfl | hc
      · cases hcase.symm.trans htrue
      · exact ih hsure.2 hc

theorem checkZonemap_equal_iff :
    t.checkZonemap d .equal constants = .filterAlwaysTrue ↔ ∃ c ∈ constants, t.IsExactly d c := by
  cases t with
  | integer lo hi =>
    have hex : ∀ c : ℤ, NumericStats.constantExactRange d.min d.max c = true ↔ c = d.min ∧ c = d.max := by
      simp [NumericStats.constantExactRange]
    have htrue : ∀ c : ℤ, NumericStats.checkConstant .equal d.min d.max c = .filterAlwaysTrue ↔
        NumericStats.constantExactRange d.min d.max c = true := by
      intro c
      simp only [NumericStats.checkConstant]
      split_ifs <;> simp [*]
    change (if NumericStats.hasMinMax d then _ else _) = _ ↔ ∃ c ∈ constants, NumericStats.hasMinMax d = true ∧ _
    constructor
    · intro h
      split_ifs at h with hbds
      obtain ⟨c, hc, heq⟩ := exists_of_checkConstants h
      exact ⟨c, hc, hbds, (htrue c).1 heq⟩
    · rintro ⟨c, hc, hbds, heq⟩
      rw [if_pos hbds]
      refine checkConstants_of_sure (fun c' _ => ?_) hc ((htrue c).2 heq)
      -- As the bounds are the same, every other constant is out of their range.
      change NumericStats.checkConstant .equal d.min d.max c' ≠ .noPruningPossible
      rw [hex] at heq
      simp only [NumericStats.checkConstant]
      split_ifs with h₁ h₂
      · decide
      · simp only [NumericStats.constantValueInRange, Bool.not_eq_true', Bool.or_eq_false_iff,
          decide_eq_false_iff_not, not_lt, ← heq.1, ← heq.2] at h₂
        exact absurd ((hex c').2 ⟨(le_antisymm h₂.2 h₂.1).trans heq.1, (le_antisymm h₂.2 h₂.1).trans heq.2⟩) h₁
      · decide
  | varchar =>
    refine iff_of_false (fun h => ?_) fun h => h.choose_spec.2
    obtain ⟨c, -, heq⟩ := exists_of_checkConstants h
    change StringStats.checkConstant .equal d.min d.max c = _ at heq
    simp only [StringStats.checkConstant] at heq
    split_ifs at heq

end ColumnType

/-! ## Answers -/

namespace TableFilter

variable {t : ColumnType} {stats : BaseStatistics t} {v : Option t.Value}

theorem checkConstantFilter_sound (hwf : t.WellFormed stats.data) (hv : stats.Allows v)
    {comparisonType : ComparisonType} {constant : t.Value}
    (hmiss : v = none → ¬MissesNull stats (.constantFilter comparisonType constant)) :
    (checkConstantFilter comparisonType constant stats = .filterAlwaysTrue →
        passes (.constantFilter comparisonType constant) v = true) ∧
      (checkConstantFilter comparisonType constant stats = .filterAlwaysFalse →
        passes (.constantFilter comparisonType constant) v = false) := by
  rw [checkConstantFilter]
  cases v with
  | some v =>
    obtain ⟨hnonull, hwith⟩ := hv
    obtain ⟨htrue, hfls⟩ := hwith.checkZonemap hwf comparisonType [constant]
    rw [hnonull, passes]
    rw [if_neg (by simp : ¬(!true) = true)]
    dsimp only
    split_ifs with hnl
    · exact ⟨(fun h => nomatch h), fun h => nomatch h⟩
    · refine ⟨fun h => ?_, fun h => hfls h constant mem_cons_self⟩
      obtain ⟨c, hc, hhld⟩ := htrue h
      rwa [mem_singleton.1 hc] at hhld
  | none =>
    have hnl : stats.hasNull = true := hv
    have hmiss := hmiss rfl
    cases hnonull : stats.hasNoNull with
    | false =>
      refine ⟨(fun h => nomatch h), fun _ => decide_eq_false ?_⟩
      rintro rfl
      exact hmiss ⟨hnl, .inl hnonull⟩
    | true =>
      rw [if_neg (by simp : ¬(!true) = true), hnl]
      dsimp only
      split_ifs with htrue
      · exact ⟨(fun h => nomatch h), fun h => nomatch h⟩
      · refine ⟨fun h => absurd ⟨h, rfl⟩ htrue, fun h => decide_eq_false ?_⟩
        rintro rfl
        exact hmiss ⟨hnl, .inr (ColumnType.checkZonemap_distinctFrom_iff.1 h)⟩

theorem checkInFilter_sound (hwf : t.WellFormed stats.data) (hv : stats.Allows v) {values : List t.Value}
    (hmiss : v = none → ¬MissesNull stats (.inFilter values)) :
    (t.checkZonemap stats.data .equal values = .filterAlwaysTrue → passes (.inFilter values) v = true) ∧
      (t.checkZonemap stats.data .equal values = .filterAlwaysFalse → passes (.inFilter values) v = false) := by
  cases v with
  | some v =>
    obtain ⟨htrue, hfls⟩ := hv.2.checkZonemap hwf .equal values
    exact ⟨fun h => any_eq_true.2 (htrue h), fun h => any_eq_false.2 fun c hc =>
      Bool.eq_false_iff.1 (hfls h c hc)⟩
  | none =>
    exact ⟨fun h => absurd ⟨hv, ColumnType.checkZonemap_equal_iff.1 h⟩ (hmiss rfl), fun _ => rfl⟩

theorem checkIsNullFilter_sound (hv : stats.Allows v) :
    (checkIsNullFilter stats = .filterAlwaysTrue → passes (.isNullFilter : TableFilter t.Value) v = true) ∧
      (checkIsNullFilter stats = .filterAlwaysFalse → passes (.isNullFilter : TableFilter t.Value) v = false) := by
  rw [checkIsNullFilter, passes]
  cases v with
  | some v =>
    rw [hv.1]
    refine ⟨fun h => ?_, fun _ => rfl⟩
    cases hnl : stats.hasNull <;> simp [hnl] at h
  | none =>
    rw [show stats.hasNull = true from hv]
    refine ⟨fun _ => rfl, fun h => ?_⟩
    cases hnonull : stats.hasNoNull <;> simp [hnonull] at h

theorem checkIsNotNullFilter_sound (hv : stats.Allows v) :
    (checkIsNotNullFilter stats = .filterAlwaysTrue → passes (.isNotNullFilter : TableFilter t.Value) v = true) ∧
      (checkIsNotNullFilter stats = .filterAlwaysFalse →
        passes (.isNotNullFilter : TableFilter t.Value) v = false) := by
  rw [checkIsNotNullFilter, passes]
  cases v with
  | some v =>
    rw [hv.1]
    refine ⟨fun _ => rfl, fun h => ?_⟩
    cases hnl : stats.hasNull <;> simp [hnl] at h
  | none =>
    rw [show stats.hasNull = true from hv]
    refine ⟨fun h => ?_, fun _ => rfl⟩
    cases hnonull : stats.hasNoNull <;> simp [hnonull] at h

mutual

theorem checkStatistics_sound (hwf : t.WellFormed stats.data) (hv : stats.Allows v) :
    ∀ filter : TableFilter t.Value, (∀ g ∈ filter.parts, v = none → ¬MissesNull stats g) →
      (filter.checkStatistics stats = .filterAlwaysTrue → filter.passes v = true) ∧
        (filter.checkStatistics stats = .filterAlwaysFalse → filter.passes v = false)
  | .constantFilter comparisonType constant, hmiss => by
    rw [checkStatistics]
    exact checkConstantFilter_sound hwf hv (hmiss _ (by rw [parts]; exact mem_cons_self))
  | .inFilter values, hmiss => by
    rw [checkStatistics]
    exact checkInFilter_sound hwf hv (hmiss _ (by rw [parts]; exact mem_cons_self))
  | .isNullFilter, _ => by
    rw [checkStatistics]
    exact checkIsNullFilter_sound hv
  | .isNotNullFilter, _ => by
    rw [checkStatistics]
    exact checkIsNotNullFilter_sound hv
  | .optionalFilter childFilter, hmiss => by
    rw [checkStatistics, passes]
    exact checkStatistics_sound hwf hv childFilter fun g hg =>
      hmiss g (by rw [parts]; exact mem_cons_of_mem _ hg)
  | .conjunctionOrFilter childFilters, hmiss => by
    rw [checkStatistics, passes]
    exact checkOr_sound hwf hv childFilters fun g hg =>
      hmiss g (by rw [parts]; exact mem_cons_of_mem _ hg)
  | .conjunctionAndFilter childFilters, hmiss => by
    rw [checkStatistics, passes]
    obtain ⟨htrue, hfls⟩ := checkAnd_sound hwf hv childFilters fun g hg =>
      hmiss g (by rw [parts]; exact mem_cons_of_mem _ hg)
    exact ⟨fun h => (htrue _ h).2, hfls .filterAlwaysTrue fun h => nomatch h⟩

theorem checkOr_sound (hwf : t.WellFormed stats.data) (hv : stats.Allows v) :
    ∀ filters : List (TableFilter t.Value), (∀ g ∈ partsOfList filters, v = none → ¬MissesNull stats g) →
      (checkOr stats filters = .filterAlwaysTrue → passesAny filters v = true) ∧
        (checkOr stats filters = .filterAlwaysFalse → passesAny filters v = false)
  | [], _ => by
    rw [checkOr, passesAny]
    exact ⟨(fun h => nomatch h), fun _ => rfl⟩
  | filter :: filters, hmiss => by
    rw [partsOfList, forall_mem_append] at hmiss
    obtain ⟨htrue, hfls⟩ := checkStatistics_sound hwf hv filter hmiss.1
    obtain ⟨htrues, hfalses⟩ := checkOr_sound hwf hv filters hmiss.2
    rw [checkOr, passesAny, Bool.or_eq_true, Bool.or_eq_false_iff]
    cases h : filter.checkStatistics stats with
    | noPruningPossible => exact ⟨(fun h => nomatch h), fun h => nomatch h⟩
    | filterAlwaysTrue => exact ⟨fun _ => .inl (htrue h), fun h => nomatch h⟩
    | filterAlwaysFalse => exact ⟨fun hs => .inr (htrues hs), fun hs => ⟨hfls h, hfalses hs⟩⟩

/-- All filters have `FILTER_ALWAYS_TRUE` if the result has it, and one has `FILTER_ALWAYS_FALSE`. -/
theorem checkAnd_sound (hwf : t.WellFormed stats.data) (hv : stats.Allows v) :
    ∀ filters : List (TableFilter t.Value), (∀ g ∈ partsOfList filters, v = none → ¬MissesNull stats g) →
      (∀ result, checkAnd stats result filters = .filterAlwaysTrue →
          result = .filterAlwaysTrue ∧ passesAll filters v = true) ∧
        ∀ result, result ≠ .filterAlwaysFalse → checkAnd stats result filters = .filterAlwaysFalse →
          passesAll filters v = false
  | [], _ => by
    refine ⟨fun result h => ?_, fun result hne h => ?_⟩
    · rw [checkAnd] at h
      exact ⟨h, by rw [passesAll]⟩
    · rw [checkAnd] at h
      exact absurd h hne
  | filter :: filters, hmiss => by
    rw [partsOfList, forall_mem_append] at hmiss
    obtain ⟨htrue, hfls⟩ := checkStatistics_sound hwf hv filter hmiss.1
    obtain ⟨htrues, hfalses⟩ := checkAnd_sound hwf hv filters hmiss.2
    refine ⟨fun result h => ?_, fun result hne h => ?_⟩
    · rw [checkAnd] at h
      split_ifs at h with h₁ h₂
      · exact nomatch (htrues _ h).1
      · rw [not_not] at h₂
        obtain ⟨hres, hpass⟩ := htrues _ h
        rw [passesAll, htrue (h₂.trans hres), hpass]
        exact ⟨hres, rfl⟩
    · rw [checkAnd] at h
      rw [passesAll, Bool.and_eq_false_iff]
      split_ifs at h with h₁ h₂
      · exact .inl (hfls h₁)
      · exact .inr (hfalses .noPruningPossible (fun h' => nomatch h') h)
      · exact .inr (hfalses _ hne h)

end

theorem not_right_of_missesNull {values : List (Option t.Value)} {filter : TableFilter t.Value}
    (hnl : stats.hasNull = true → none ∈ values) (hmiss : MissesNull stats filter) : ¬Right stats values filter := by
  cases filter with
  | constantFilter comparisonType constant =>
    cases comparisonType with
    | distinctFrom =>
      obtain ⟨hflag, hmiss⟩ := hmiss
      intro hrt
      have hfls := hrt.1 ?_ none (hnl hflag)
      · exact nomatch hfls
      · rw [checkStatistics, checkConstantFilter]
        cases hnonull : stats.hasNoNull with
        | false => rfl
        | true =>
          obtain hmiss := ColumnType.checkZonemap_distinctFrom_iff.2 (hmiss.resolve_left (by simp [hnonull]))
          rw [hmiss]
          rfl
    | _ => exact hmiss.elim
  | inFilter constants =>
    obtain ⟨hflag, hmiss⟩ := hmiss
    intro hrt
    have htrue := hrt.2 ?_ none (hnl hflag)
    · exact nomatch htrue
    · exact ColumnType.checkZonemap_equal_iff.2 hmiss
  | _ => exact hmiss.elim

mutual

theorem parts_subset {α : Type} : ∀ {filter g : TableFilter α}, g ∈ filter.parts → g.parts ⊆ filter.parts
  | .constantFilter _ _, g, hg | .inFilter _, g, hg | .isNullFilter, g, hg | .isNotNullFilter, g, hg => by
    rw [parts, mem_singleton] at hg
    exact hg ▸ List.Subset.refl _
  | .optionalFilter childFilter, g, hg => by
    rw [parts, mem_cons] at hg
    rcases hg with rfl | hg
    · exact List.Subset.refl _
    · rw [parts]
      exact subset_cons_of_subset _ (parts_subset hg)
  | .conjunctionOrFilter childFilters, g, hg | .conjunctionAndFilter childFilters, g, hg => by
    rw [parts, mem_cons] at hg
    rcases hg with rfl | hg
    · exact List.Subset.refl _
    · rw [parts]
      exact subset_cons_of_subset _ (partsOfList_subset hg)

theorem partsOfList_subset {α : Type} :
    ∀ {filters : List (TableFilter α)} {g : TableFilter α}, g ∈ partsOfList filters → g.parts ⊆ partsOfList filters
  | filter :: filters, g, hg => by
    rw [partsOfList, mem_append] at hg
    rw [partsOfList]
    rcases hg with hg | hg
    · exact subset_append_of_subset_left _ (parts_subset hg)
    · exact subset_append_of_subset_right _ (partsOfList_subset hg)

end

/-- A filter and all that it is made of are judged right if and only if none of them misses `NULL`s. -/
theorem right_iff {values : List (Option t.Value)} (h : stats.Collected values) (filter : TableFilter t.Value) :
    (∀ g ∈ filter.parts, Right stats values g) ↔ ∀ g ∈ filter.parts, ¬MissesNull stats g := by
  constructor
  · intro hrt g hg hmiss
    exact not_right_of_missesNull h.mem_of_hasNull hmiss (hrt g hg)
  · intro hmiss g hg
    have hsound : ∀ v ∈ values, _ := fun v hv => checkStatistics_sound h.wellFormed (h.allows v hv) g
      fun g' hg' _ => hmiss g' (parts_subset hg hg')
    exact ⟨fun hfls v hv => (hsound v hv).2 hfls, fun htrue v hv => (hsound v hv).1 htrue⟩

/-- A column with the values `5` and `NULL`. -/
def fiveAndNull : BaseStatistics (.integer 0 255) := ((BaseStatistics.createEmpty _ false).update (some 5)).update none

theorem fiveAndNull_collected : fiveAndNull.Collected [some 5, none] :=
  .update none (.update (some 5) (.createEmpty false))

theorem right_iff_fiveAndNull : (∀ g ∈ parts (.inFilter [(5 : ℤ)]), Right fiveAndNull [some 5, none] g) ↔
      ∀ g ∈ parts (.inFilter [(5 : ℤ)]), ¬MissesNull fiveAndNull g :=
  right_iff fiveAndNull_collected (.inFilter [(5 : ℤ)])

/-- Both answers are wrong for `NULL`. -/
theorem inFilter_not_right :
    fiveAndNull.Collected [some 5, none] ∧ ¬Right fiveAndNull [some 5, none] (.inFilter [(5 : ℤ)]) ∧
      ¬Right fiveAndNull [some 5, none] (.constantFilter .distinctFrom (5 : ℤ)) := by
  refine ⟨fiveAndNull_collected, fun h => ?_, fun h => ?_⟩
  · have hfls : passes (.inFilter [(5 : ℤ)]) none = false := by decide
    rw [h.2 (by decide) none (by simp)] at hfls
    exact nomatch hfls
  · have htrue : passes (.constantFilter .distinctFrom (5 : ℤ)) none = true := by decide
    rw [h.1 (by decide) none (by simp)] at htrue
    exact nomatch htrue

end TableFilter

end WfOpt

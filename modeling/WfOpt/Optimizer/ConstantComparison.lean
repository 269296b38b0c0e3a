import WfOpt.Storage.Statistics

/-!
# Comparisons with constants

The comparisons of an expression with constants are kept in a list, in which a new one is compared with each of the
others (`CompareValueInformation`): one of the two may follow from the other, or both cannot be true. Adding a
comparison to a list gives a list that says the same as both (`addConstantComparison_success`), with one bound in
each direction at most, or else no value meets both (`addConstantComparison_unsatisfiable`).
-/

namespace WfOpt

open List

/-- `FilterResult` -/
inductive FilterResult
  | unsatisfiable
  | success
  | unsupported
  deriving DecidableEq

/-- `ValueComparisonResult` -/
inductive ValueComparisonResult
  | pruneLeft
  | pruneRight
  | unsatisfiableCondition
  | pruneNothing
  deriving DecidableEq

/-- `FilterCombiner::ExpressionValueInformation` -/
structure ValueInformation (α : Type) where
  constant : α
  comparisonType : ComparisonType

namespace ComparisonType

/-- `SupportedFilterComparison` -/
def isSupported : ComparisonType → Bool
  | .equal | .greaterThan | .greaterThanOrEqualTo | .lessThan | .lessThanOrEqualTo | .notEqual => true
  | .distinctFrom | .notDistinctFrom => false

/-- `IsGreaterThan` -/
def isGreaterThan (type : ComparisonType) : Bool := type = .greaterThan || type = .greaterThanOrEqualTo

/-- `IsLessThan` -/
def isLessThan (type : ComparisonType) : Bool := type = .lessThan || type = .lessThanOrEqualTo

end ComparisonType

variable {α : Type} [LinearOrder α]

/-- `InvertValueComparisonResult` -/
def ValueComparisonResult.invert : ValueComparisonResult → ValueComparisonResult
  | .pruneRight => .pruneLeft
  | .pruneLeft => .pruneRight
  | result => result

namespace ValueInformation

/-- `CompareValueInformation`, if the left one is `COMPARE_EQUAL` -/
def compareEqual (left right : ValueInformation α) : ValueComparisonResult := let pruneRightSide : Bool :=
    match right.comparisonType with
    | .lessThan => left.constant < right.constant
    | .lessThanOrEqualTo => left.constant ≤ right.constant
    | .greaterThan => right.constant < left.constant
    | .greaterThanOrEqualTo => right.constant ≤ left.constant
    | .notEqual => left.constant ≠ right.constant
    | _ => left.constant = right.constant
  if pruneRightSide then .pruneRight else .unsatisfiableCondition

/-- `CompareValueInformation`, if the left one is `COMPARE_NOTEQUAL` -/
def compareNotEqual (left right : ValueInformation α) : ValueComparisonResult := let pruneLeftSide : Bool :=
    match right.comparisonType with
    | .lessThan => right.constant ≤ left.constant
    | .lessThanOrEqualTo => right.constant < left.constant
    | .greaterThan => left.constant ≤ right.constant
    | .greaterThanOrEqualTo => left.constant < right.constant
    | _ => left.constant = right.constant
  if pruneLeftSide then .pruneLeft else .pruneNothing

/-- `CompareValueInformation`, if the left one is `<` or `<=` and the right one `>` or `>=` -/
def compareLessGreater (left right : ValueInformation α) : ValueComparisonResult :=
  if right.constant ≤ left.constant then .pruneNothing else .unsatisfiableCondition

/-- `CompareValueInformation`, if both are `>` or `>=`: of equal constants `>=` is pruned -/
def compareGreater (left right : ValueInformation α) : ValueComparisonResult :=
  if right.constant < left.constant then .pruneRight
  else if left.constant < right.constant then .pruneLeft
  else if left.comparisonType = .greaterThanOrEqualTo then .pruneLeft
  else .pruneRight

/-- `CompareValueInformation`, if both are `<` or `<=`: of equal constants `<=` is pruned -/
def compareLess (left right : ValueInformation α) : ValueComparisonResult :=
  if left.constant < right.constant then .pruneRight
  else if right.constant < left.constant then .pruneLeft
  else if left.comparisonType = .lessThanOrEqualTo then .pruneLeft
  else .pruneRight

/-- `CompareValueInformation` -/
def compare (left right : ValueInformation α) : ValueComparisonResult :=
  if left.comparisonType = .equal then compareEqual left right
  else if right.comparisonType = .equal then (compareEqual right left).invert
  else if left.comparisonType = .notEqual then compareNotEqual left right
  else if right.comparisonType = .notEqual then (compareNotEqual right left).invert
  else if left.comparisonType.isGreaterThan ∧ right.comparisonType.isGreaterThan then compareGreater left right
  else if left.comparisonType.isLessThan ∧ right.comparisonType.isLessThan then compareLess left right
  else if left.comparisonType.isLessThan then compareLessGreater left right
  else (compareLessGreater right left).invert

end ValueInformation

/-- The loop of `FilterCombiner::AddConstantComparison` -/
def addConstantLoop (info : ValueInformation α) :
    List (ValueInformation α) → FilterResult × List (ValueInformation α)
  | [] => (.success, [info])
  | left :: infoList =>
    match left.compare info with
    | .pruneLeft => addConstantLoop info infoList
    | .pruneRight => (.success, left :: infoList)
    | .unsatisfiableCondition => (.unsatisfiable, left :: infoList ++ [info])
    | .pruneNothing => (addConstantLoop info infoList).map id (left :: ·)

/-- `FilterCombiner::AddConstantComparison` -/
def addConstantComparison (infoList : List (ValueInformation α)) (constant : Option α)
    (comparisonType : ComparisonType) : FilterResult × List (ValueInformation α) :=
  match constant with
  | none => (.unsatisfiable, infoList)
  | some constant => addConstantLoop ⟨constant, comparisonType⟩ infoList

/-! ## What the comparisons say -/

namespace ValueInformation

/-- The comparison is true for a value. -/
def Holds (info : ValueInformation α) (v : α) : Prop := info.comparisonType.holds v info.constant = true

variable {left right : ValueInformation α}

/-- A result is right: what is pruned follows from what is kept, and nothing meets what is unsatisfiable. -/
def ComparedRight (left right : ValueInformation α) : ValueComparisonResult → Prop
  | .pruneLeft => ∀ v, right.Holds v → left.Holds v
  | .pruneRight => ∀ v, left.Holds v → right.Holds v
  | .unsatisfiableCondition => ∀ v, left.Holds v → ¬right.Holds v
  | .pruneNothing => True

theorem ComparedRight.invert {result : ValueComparisonResult} (h : ComparedRight right left result) :
    ComparedRight left right result.invert := by
  cases result with
  | pruneLeft => exact h
  | pruneRight => exact h
  | unsatisfiableCondition => exact fun v hlft hrt => h v hrt hlft
  | pruneNothing => trivial

theorem compareEqual_right (hlft : left.comparisonType = .equal) (hrt : right.comparisonType.isSupported = true) :
    ComparedRight left right (left.compareEqual right) := by
  have hhld : ∀ v, left.Holds v ↔ v = left.constant := by
    intro v
    rw [Holds, hlft]
    exact ComparisonType.holds_equal
  -- The only value is the constant, for which the right one is checked.
  have hchk : ∀ b : Bool, (b = true ↔ right.Holds left.constant) →
      ComparedRight left right (if b then .pruneRight else .unsatisfiableCondition) := by
    intro b hb
    split_ifs with h
    · intro v hv
      rw [(hhld v).1 hv]
      exact hb.1 h
    · intro v hv
      rw [(hhld v).1 hv]
      exact mt hb.2 h
  refine hchk _ ?_
  rw [Holds]
  cases hr : right.comparisonType <;> simp [hr, ComparisonType.isSupported] at hrt <;>
    simp [ComparisonType.holds]

theorem compareNotEqual_right (hlft : left.comparisonType = .notEqual)
    (hrt : right.comparisonType.isSupported = true) (hne : right.comparisonType ≠ .equal) :
    ComparedRight left right (left.compareNotEqual right) := by
  have hhld : ∀ v, left.Holds v ↔ v ≠ left.constant := by
    intro v
    rw [Holds, hlft]
    exact ComparisonType.holds_notEqual
  -- The left one follows if the right one excludes the constant.
  have hchk : ∀ b : Bool, (b = true → ¬right.Holds left.constant) →
      ComparedRight left right (if b then .pruneLeft else .pruneNothing) := by
    intro b hb
    split_ifs with h
    · intro v hv
      rw [hhld]
      rintro rfl
      exact hb h hv
    · trivial
  refine hchk _ ?_
  rw [Holds]
  cases hr : right.comparisonType <;> simp [hr, ComparisonType.isSupported] at hrt hne <;>
    simp [ComparisonType.holds]

/-- Of two lower bounds the one with the greater constant says more, of two with the same constant the exclusive one. -/
theorem compareGreater_right (hlft : left.comparisonType.isGreaterThan = true)
    (hrt : right.comparisonType.isGreaterThan = true) :
    ComparedRight left right (left.compareGreater right) := by
  rw [compareGreater]
  obtain ⟨x, l⟩ := left
  obtain ⟨y, r⟩ := right
  simp only [ComparisonType.isGreaterThan, Bool.or_eq_true, decide_eq_true_eq] at hlft hrt
  split_ifs with hyx hxy hl
  all_goals
    intro v hv
    rcases hlft with rfl | rfl <;> rcases hrt with rfl | rfl <;>
      simp only [Holds, ComparisonType.holds_greaterThan, ComparisonType.holds_greaterThanOrEqualTo] at hv ⊢ <;>
      grind

theorem compareLess_right (hlft : left.comparisonType.isLessThan = true)
    (hrt : right.comparisonType.isLessThan = true) :
    ComparedRight left right (left.compareLess right) := by
  rw [compareLess]
  obtain ⟨x, l⟩ := left
  obtain ⟨y, r⟩ := right
  simp only [ComparisonType.isLessThan, Bool.or_eq_true, decide_eq_true_eq] at hlft hrt
  split_ifs with hxy hyx hl
  all_goals
    intro v hv
    rcases hlft with rfl | rfl <;> rcases hrt with rfl | rfl <;>
      simp only [Holds, ComparisonType.holds_lessThan, ComparisonType.holds_lessThanOrEqualTo] at hv ⊢ <;>
      grind

/-- A lower and an upper bound exclude each other if they are in the wrong order. -/
theorem compareLessGreater_right (hlft : left.comparisonType.isLessThan = true)
    (hrt : right.comparisonType.isGreaterThan = true) :
    ComparedRight left right (left.compareLessGreater right) := by
  have hup : ∀ v, left.Holds v → v ≤ left.constant := by
    intro v hv
    rw [Holds] at hv
    rcases Bool.or_eq_true_iff.1 hlft with h | h <;> rw [of_decide_eq_true h] at hv
    · exact (ComparisonType.holds_lessThan.1 hv).le
    · exact ComparisonType.holds_lessThanOrEqualTo.1 hv
  have hlow : ∀ v, right.Holds v → right.constant ≤ v := by
    intro v hv
    rw [Holds] at hv
    rcases Bool.or_eq_true_iff.1 hrt with h | h <;> rw [of_decide_eq_true h] at hv
    · exact (ComparisonType.holds_greaterThan.1 hv).le
    · exact ComparisonType.holds_greaterThanOrEqualTo.1 hv
  rw [compareLessGreater]
  split_ifs with h
  · trivial
  · intro v hl hr
    exact h ((hlow v hr).trans (hup v hl))

end ValueInformation

/-- A comparison that is supported is an equality, an inequality, a lower or an upper bound. -/
theorem ComparisonType.isSupported_cases {type : ComparisonType} (h : type.isSupported = true) :
    type = .equal ∨ type = .notEqual ∨ type.isGreaterThan = true ∨ type.isLessThan = true := by
  revert h
  cases type <;> decide

namespace ValueInformation

variable {left right : ValueInformation α}

theorem compare_right (hlft : left.comparisonType.isSupported = true)
    (hrt : right.comparisonType.isSupported = true) : ComparedRight left right (left.compare right) := by
  rw [compare]
  split_ifs with hl hr hl' hr' hgr hless hless'
  · exact compareEqual_right hl hrt
  · exact (compareEqual_right hr hlft).invert
  · exact compareNotEqual_right hl' hrt hr
  · exact (compareNotEqual_right hr' hlft hl).invert
  · exact compareGreater_right hgr.1 hgr.2
  · exact compareLess_right hless.1 hless.2
  · refine compareLessGreater_right hless' ?_
    rcases ComparisonType.isSupported_cases hrt with h | h | h | h
    · exact absurd h hr
    · exact absurd h hr'
    · exact h
    · exact absurd ⟨hless', h⟩ hless
  · have hgr' : left.comparisonType.isGreaterThan = true := by
      rcases ComparisonType.isSupported_cases hlft with h | h | h | h
      · exact absurd h hl
      · exact absurd h hl'
      · exact h
      · exact absurd h hless'
    refine (compareLessGreater_right ?_ hgr').invert
    rcases ComparisonType.isSupported_cases hrt with h | h | h | h
    · exact absurd h hr
    · exact absurd h hr'
    · exact absurd ⟨hgr', h⟩ hgr
    · exact h

/-- Both are lower bounds, or both are upper bounds. -/
def SameSide (left right : ValueInformation α) : Prop :=
  (left.comparisonType.isGreaterThan = true ∧ right.comparisonType.isGreaterThan = true) ∨
    (left.comparisonType.isLessThan = true ∧ right.comparisonType.isLessThan = true)

/-- Of two bounds on the same side one is always pruned. -/
theorem not_sameSide_of_compare (h : left.compare right = .pruneNothing) : ¬left.SameSide right := by
  rintro (⟨hl, hr⟩ | ⟨hl, hr⟩)
  all_goals
    rw [compare] at h
    cases hltype : left.comparisonType <;> cases hrtype : right.comparisonType <;>
      simp [hltype, hrtype, ComparisonType.isGreaterThan, ComparisonType.isLessThan] at hl hr h
  all_goals
    simp only [compareGreater, compareLess] at h
    split_ifs at h

end ValueInformation

/-! ## Lists of comparisons -/

/-- A list of comparisons has at most one lower and one upper bound. -/
structure NormalInfos (infoList : List (ValueInformation α)) : Prop where
  supported : ∀ info ∈ infoList, info.comparisonType.isSupported = true
  pairwise : infoList.Pairwise fun left right => ¬left.SameSide right

omit [LinearOrder α] in
theorem NormalInfos.nil : NormalInfos ([] : List (ValueInformation α)) := ⟨fun _ h => (not_mem_nil h).elim, .nil⟩

omit [LinearOrder α] in
theorem normalInfos_cons {left : ValueInformation α} {infoList : List (ValueInformation α)} :
    NormalInfos (left :: infoList) ↔
      (left.comparisonType.isSupported = true ∧ ∀ right ∈ infoList, ¬left.SameSide right) ∧ NormalInfos infoList := by
  constructor
  · rintro ⟨hsup, hpw⟩
    obtain ⟨hlft, hpw⟩ := pairwise_cons.1 hpw
    obtain ⟨hsupp, hsup⟩ := forall_mem_cons.1 hsup
    exact ⟨⟨hsupp, hlft⟩, hsup, hpw⟩
  · rintro ⟨⟨hsupp, hlft⟩, hsup, hpw⟩
    exact ⟨forall_mem_cons.2 ⟨hsupp, hsup⟩, pairwise_cons.2 ⟨hlft, hpw⟩⟩

section

variable (info : ValueInformation α) (infoList : List (ValueInformation α))

theorem addConstantLoop_ne_nil :
    (addConstantLoop info infoList).2 ≠ [] := by
  induction infoList with
  | nil => exact cons_ne_nil _ _
  | cons left infoList ih =>
    rw [addConstantLoop]
    cases left.compare info with
    | pruneLeft => exact ih
    | pruneRight | unsatisfiableCondition | pruneNothing => exact cons_ne_nil _ _

theorem addConstantLoop_ne_unsupported :
    (addConstantLoop info infoList).1 ≠ .unsupported := by
  induction infoList with
  | nil => exact nofun
  | cons left infoList ih =>
    rw [addConstantLoop]
    cases left.compare info with
    | pruneLeft => exact ih
    | pruneRight => exact nofun
    | unsatisfiableCondition => exact nofun
    | pruneNothing => exact ih

end

theorem addConstantComparison_ne_unsupported (infoList : List (ValueInformation α)) (constant : Option α)
    (comparisonType : ComparisonType) : (addConstantComparison infoList constant comparisonType).1 ≠ .unsupported := by
  cases constant with
  | none => exact nofun
  | some constant => exact addConstantLoop_ne_unsupported _ _

section AddConstant

variable (info : ValueInformation α) (hinfo : info.comparisonType.isSupported = true)
include hinfo

/-- The loop returns the list with the new comparison, or no value meets all of them. By induction on the list: the
    comparisons kept are not on the side of the new one. -/
theorem addConstantLoop_spec {infoList : List (ValueInformation α)} (h : NormalInfos infoList) :
    ((addConstantLoop info infoList).1 = .success ∧ NormalInfos (addConstantLoop info infoList).2 ∧
        (∀ i ∈ (addConstantLoop info infoList).2, i ∈ infoList ∨ i = info) ∧
        ∀ v, (∀ i ∈ (addConstantLoop info infoList).2, i.Holds v) ↔ (∀ i ∈ infoList, i.Holds v) ∧ info.Holds v) ∨
      ((addConstantLoop info infoList).1 = .unsatisfiable ∧ ∀ v, (∀ i ∈ infoList, i.Holds v) → ¬info.Holds v) := by
  induction infoList with
  | nil =>
    refine .inl ⟨rfl, normalInfos_cons.2 ⟨⟨hinfo, fun _ h => (not_mem_nil h).elim⟩, .nil⟩, ?_, ?_⟩
    · intro i hi
      exact .inr (mem_singleton.1 hi)
    · simp [addConstantLoop]
  | cons left infoList ih =>
    obtain ⟨⟨hlft, hsides⟩, hrst⟩ := normalInfos_cons.1 h
    have hcmp := ValueInformation.compare_right hlft hinfo
    rw [addConstantLoop]
    cases hres : left.compare info with
    | pruneLeft =>
      rw [hres] at hcmp
      -- The list without the left one, which follows from the new one.
      rcases ih hrst with ⟨hsuc, hnorm, hmem, hiff⟩ | ⟨hunsat, hno⟩
      · refine .inl ⟨hsuc, hnorm, fun i hi => (hmem i hi).imp_left (mem_cons_of_mem _), ?_⟩
        intro v
        rw [hiff, forall_mem_cons]
        exact ⟨fun hv => ⟨⟨hcmp v hv.2, hv.1⟩, hv.2⟩, fun hv => ⟨hv.1.2, hv.2⟩⟩
      · exact .inr ⟨hunsat, fun v hv => hno v (forall_mem_cons.1 hv).2⟩
    | pruneRight =>
      rw [hres] at hcmp
      refine .inl ⟨rfl, h, fun i hi => .inl hi, ?_⟩
      intro v
      exact ⟨fun hv => ⟨hv, hcmp v (hv left mem_cons_self)⟩, And.left⟩
    | unsatisfiableCondition =>
      rw [hres] at hcmp
      exact .inr ⟨rfl, fun v hv => hcmp v (hv left mem_cons_self)⟩
    | pruneNothing =>
      have hside := ValueInformation.not_sameSide_of_compare hres
      rcases ih hrst with ⟨hsuc, hnorm, hmem, hiff⟩ | ⟨hunsat, hno⟩
      · refine .inl ⟨hsuc, normalInfos_cons.2 ⟨⟨hlft, ?_⟩, hnorm⟩, ?_, ?_⟩
        · intro right hrt
          rcases hmem right hrt with hold | rfl
          · exact hsides right hold
          · exact hside
        · intro i hi
          rcases mem_cons.1 hi with rfl | hi
          · exact .inl mem_cons_self
          · exact (hmem i hi).imp_left (mem_cons_of_mem _)
        · intro v
          change (∀ i ∈ left :: (addConstantLoop info infoList).2, i.Holds v) ↔ _
          rw [forall_mem_cons, forall_mem_cons, hiff, and_assoc]
      · exact .inr ⟨hunsat, fun v hv => hno v (forall_mem_cons.1 hv).2⟩

end AddConstant

section AddConstantComparison

variable {infoList : List (ValueInformation α)} {constant : Option α} {comparisonType : ComparisonType}
  (h : NormalInfos infoList) (htype : comparisonType.isSupported = true)
include h htype

theorem addConstantComparison_success
    (hres : (addConstantComparison infoList constant comparisonType).1 ≠ .unsatisfiable) :
    (addConstantComparison infoList constant comparisonType).1 = .success ∧
      NormalInfos (addConstantComparison infoList constant comparisonType).2 ∧
      (addConstantComparison infoList constant comparisonType).2 ≠ [] ∧
      ∀ v, (∀ i ∈ (addConstantComparison infoList constant comparisonType).2, i.Holds v) ↔
        (∀ i ∈ infoList, i.Holds v) ∧ ∃ c, constant = some c ∧ comparisonType.holds v c = true := by
  cases constant with
  | none => exact absurd rfl hres
  | some c =>
    rcases addConstantLoop_spec ⟨c, comparisonType⟩ htype h with ⟨hsuc, hnorm, -, hiff⟩ | ⟨hunsat, -⟩
    · refine ⟨hsuc, hnorm, addConstantLoop_ne_nil _ _, fun v => (hiff v).trans (and_congr_right' ?_)⟩
      simp [ValueInformation.Holds]
    · exact absurd hunsat hres

theorem addConstantComparison_unsatisfiable
    (hres : (addConstantComparison infoList constant comparisonType).1 = .unsatisfiable) {v : α}
    (hv : ∀ i ∈ infoList, i.Holds v) {c : α} (hconst : constant = some c) :
    comparisonType.holds v c ≠ true := by
  subst hconst
  rcases addConstantLoop_spec ⟨c, comparisonType⟩ htype h with ⟨hsuc, -⟩ | ⟨-, hno⟩
  · exact nomatch hsuc.symm.trans hres
  · exact hno v hv

end AddConstantComparison

end WfOpt

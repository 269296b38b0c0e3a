import WfOpt.Lib.ThreeValued

/-!
# Factoring out of an OR

`DistributivityRule` takes the expressions that all children of an OR have in common out of them: `(X AND A) OR (X AND
B)` becomes `X AND (A OR B)`. Children are changed in place, and an AND with one member left becomes this member.
`apply_sound`: no assertion fails, and the value is kept.
-/

namespace WfOpt.DistributivityRule

open List

/-- `CONJUNCTION_AND` and `CONJUNCTION_OR` -/
inductive ConjunctionType
  | conjunctionAnd
  | conjunctionOr
  deriving DecidableEq

def ConjunctionType.value : ConjunctionType → List (Option Bool) → Option Bool
  | .conjunctionAnd => ThreeValued.all
  | .conjunctionOr => ThreeValued.any

/-- The expressions, where `A` are those that are no conjunctions -/
inductive Expression (A : Type)
  | opaqueExpression (a : A)
  | conjunction (type : ConjunctionType) (children : List (Expression A))

namespace Expression

variable {A : Type}

section

variable {β : Type} (f : A → β) (g : ConjunctionType → List β → β)

mutual

/-- What is computed from the members of the conjunctions -/
def fold : Expression A → β
  | .opaqueExpression a => f a
  | .conjunction type children => g type (foldChildren children)

def foldChildren : List (Expression A) → List β
  | [] => []
  | child :: children => child.fold :: foldChildren children

end

theorem foldChildren_eq (children : List (Expression A)) : foldChildren f g children = children.map (fold f g) := by
  induction children with
  | nil => rfl
  | cons child children ih => rw [foldChildren, ih, map_cons]

end

/-- The value of an expression -/
def evaluate (value : A → Option Bool) : Expression A → Option Bool := fold value ConjunctionType.value

/-- The number of parts of an expression -/
def size : Expression A → ℕ := fold (fun _ => 1) fun _ sizes => sizes.sum + 1

variable [DecidableEq A]

mutual

/-- `Expression::Equals`. `SetEquals` of the children counts them: in some order, they are equal one by one. -/
def equals : Expression A → Expression A → Bool
  | .opaqueExpression a, .opaqueExpression b => a = b
  | .conjunction type children, .conjunction type' children' =>
    type = type' && children'.permutations.any (listEquals children ·)
  | _, _ => false

def listEquals : List (Expression A) → List (Expression A) → Bool
  | [], [] => true
  | child :: children, child' :: children' => child.equals child' && listEquals children children'
  | _, _ => false

end

/-- The members of an AND, otherwise the expression itself -/
def members : Expression A → List (Expression A)
  | .conjunction .conjunctionAnd children => children
  | expr => [expr]

/-- An AND has at least two members. -/
def HasTwo : Expression A → Prop
  | .conjunction .conjunctionAnd children => 2 ≤ children.length
  | _ => True

end Expression

variable {A : Type} [DecidableEq A]

/-- `unordered_set::insert` -/
def insert (set : List (Expression A)) (expr : Expression A) : List (Expression A) :=
  if set.any (·.equals expr) then set else set ++ [expr]

/-- `AddExpressionSet`, to an empty set -/
def addExpressionSet (expr : Expression A) : List (Expression A) := expr.members.foldl insert []

/-- The candidates: the expressions that occur in each child -/
def candidateSet : (children : List (Expression A)) → List (Expression A)
  | [] => []
  | first :: children =>
    children.foldl (fun candidates child => candidates.filter fun expr => (addExpressionSet child).any (·.equals expr))
      (addExpressionSet first)

/-- A conjunction, or its only child -/
def conjunctionOf (type : ConjunctionType) : List (Expression A) → Expression A
  | [child] => child
  | children => .conjunction type children

/-- `ExtractExpression`: the expression and what is left of the child. No result if an assertion fails or the child is
    gone. -/
def extractExpression (expr : Expression A) : Option (Expression A) → Option (Expression A × Option (Expression A))
  | none => none
  | some (.conjunction .conjunctionAnd children) =>
    let child := conjunctionOf .conjunctionAnd (children.eraseP (·.equals expr))
    match children.find? (·.equals expr) with
    | some result => some (result, some child)
    | none => if child.equals expr then some (child, none) else none
  | some child => if child.equals expr then some (child, none) else none

/-- A candidate is moved from the children to the new root. -/
def moveCandidate (state : List (Expression A) × List (Option (Expression A))) (expr : Expression A) :
    Option (List (Expression A) × List (Option (Expression A))) :=
  match state with
  | (_, []) => none
  | (newRoot, first :: children) => do
    let (result, first) ← extractExpression expr first
    let children ← children.mapM fun child => (extractExpression result child).map (·.2)
    return (newRoot ++ [result], first :: children)

/-- The new root, with what is left of the children -/
def finish (newRoot : List (Expression A)) (children : List (Option (Expression A))) : Expression A :=
  -- The OR is the new root if nothing else is left of one child.
  if children.any Option.isNone then conjunctionOf .conjunctionAnd newRoot
  else conjunctionOf .conjunctionAnd (newRoot ++ [conjunctionOf .conjunctionOr (children.filterMap id)])

/-- `DistributivityRule::Apply`, where the candidates are traversed in the order `traverse` gives. No result if an
    assertion fails, `some none` if the OR is kept. -/
def apply (traverse : List (Expression A) → List (Expression A)) (children : List (Expression A)) :
    Option (Option (Expression A)) :=
  let candidates := candidateSet children
  if candidates = [] then some none
  else do
    let (newRoot, children) ← (traverse candidates).foldlM moveCandidate ([], children.map some)
    return some (finish newRoot children)

/-! ## Equality -/

namespace Expression

omit [DecidableEq A] in
/-- Induction over the children of conjunctions -/
theorem induct {motive : Expression A → Prop} (opaqueExpression : ∀ a, motive (.opaqueExpression a))
    (conjunction : ∀ type children, (∀ child ∈ children, motive child) → motive (.conjunction type children))
    (expr : Expression A) : motive expr :=
  expr.rec (motive_2 := fun children => ∀ child ∈ children, motive child) opaqueExpression conjunction
    (forall_mem_nil _) fun _ _ hch hchs => forall_mem_cons.2 ⟨hch, hchs⟩

theorem listEquals_iff {children children' : List (Expression A)} :
    listEquals children children' = true ↔ Forall₂ (fun x y => x.equals y = true) children children' := by
  induction children generalizing children' with
  | nil => cases children' <;> simp [listEquals]
  | cons child children ih => cases children' <;> simp [listEquals, ih]

theorem equals_conjunction {type type' : ConjunctionType} {children children' : List (Expression A)} :
    (conjunction type children).equals (conjunction type' children') = true ↔
      type = type' ∧ ∃ l, Forall₂ (fun x y => x.equals y = true) children l ∧ l ~ children' := by
  simp only [equals, Bool.and_eq_true, decide_eq_true_eq, any_eq_true, mem_permutations, listEquals_iff, and_comm]

variable {x y z : Expression A}

theorem equals_refl (x : Expression A) : x.equals x = true := by
  induction x using induct with
  | opaqueExpression a => exact decide_eq_true rfl
  | conjunction type children ih => exact equals_conjunction.2 ⟨rfl, children, forall₂_same.2 ih, .refl _⟩

theorem equals_symm (h : x.equals y = true) : y.equals x = true := by
  induction x using induct generalizing y with
  | opaqueExpression a =>
    cases y with
    | opaqueExpression b => exact decide_eq_true (of_decide_eq_true h).symm
    | conjunction type children => exact nomatch h
  | conjunction type children ih =>
    cases y with
    | opaqueExpression b => exact nomatch h
    | conjunction type' children' =>
      obtain ⟨rfl, l, hl, hperm⟩ := equals_conjunction.1 h
      have hsymm : Forall₂ (fun x y => x.equals y = true) l children :=
        .flip (((forall₂_and_left _ _).2 ⟨ih, hl⟩).imp fun _ _ h => h.1 h.2)
      obtain ⟨u, hu, hperm'⟩ := perm_comp_forall₂ hperm.symm hsymm
      exact equals_conjunction.2 ⟨rfl, u, hu, hperm'⟩

theorem forall₂_trans {α : Type*} {R : α → α → Prop} {l l' l'' : List α} (h : Forall₂ R l l') (h' : Forall₂ R l' l'')
    (htrans : ∀ x ∈ l, ∀ y z, R x y → R y z → R x z) : Forall₂ R l l'' := by
  induction h generalizing l'' with
  | nil => exact h'
  | cons hxy hl ih =>
    cases h' with
    | cons hyz hl' =>
      exact .cons (htrans _ mem_cons_self _ _ hxy hyz) (ih hl' fun x hx => htrans x (mem_cons_of_mem _ hx))

theorem equals_trans (h : x.equals y = true) (h' : y.equals z = true) : x.equals z = true := by
  induction x using induct generalizing y z with
  | opaqueExpression a =>
    cases y with
    | opaqueExpression b => exact of_decide_eq_true h ▸ h'
    | conjunction type children => exact nomatch h
  | conjunction type children ih =>
    cases y with
    | opaqueExpression b => exact nomatch h
    | conjunction type' children' =>
      cases z with
      | opaqueExpression b => exact nomatch h'
      | conjunction type'' children'' =>
        obtain ⟨rfl, l, hl, hperm⟩ := equals_conjunction.1 h
        obtain ⟨rfl, l', hl', hperm'⟩ := equals_conjunction.1 h'
        obtain ⟨u, hu, hperm''⟩ := perm_comp_forall₂ hperm hl'
        refine equals_conjunction.2 ⟨rfl, u, forall₂_trans hl hu fun x hx y z => ?_, hperm''.trans hperm'⟩
        exact fun hxy hyz => ih x hx hxy hyz

/-- What does not depend on the order of children is equal for equal expressions. -/
theorem fold_eq {β : Type} (f : A → β) {g : ConjunctionType → List β → β}
    (hg : ∀ type l l', l ~ l' → g type l = g type l') (h : x.equals y = true) : x.fold f g = y.fold f g := by
  induction x using induct generalizing y with
  | opaqueExpression a =>
    cases y with
    | opaqueExpression b => rw [of_decide_eq_true h]
    | conjunction type children => exact nomatch h
  | conjunction type children ih =>
    cases y with
    | opaqueExpression b => exact nomatch h
    | conjunction type' children' =>
      obtain ⟨rfl, l, hl, hperm⟩ := equals_conjunction.1 h
      have heq : Forall₂ Eq (children.map (fold f g)) (l.map (fold f g)) :=
        forall₂_map_left_iff.2 <| forall₂_map_right_iff.2 <|
          ((forall₂_and_left _ _).2 ⟨ih, hl⟩).imp fun _ _ h => h.1 h.2
      rw [forall₂_eq_eq_eq] at heq
      rw [fold, fold, foldChildren_eq, foldChildren_eq, heq]
      exact hg _ _ _ (hperm.map _)

theorem evaluate_eq (value : A → Option Bool) (h : x.equals y = true) : x.evaluate value = y.evaluate value := by
  refine fold_eq _ (fun type l l' hperm => ?_) h
  cases type with
  | conjunctionAnd => exact ThreeValued.all_congr fun a => hperm.mem_iff
  | conjunctionOr => exact ThreeValued.any_congr fun a => hperm.mem_iff

theorem size_eq (h : x.equals y = true) : x.size = y.size := fold_eq _ (fun _ _ _ hperm => by rw [hperm.sum_nat]) h

/-- A conjunction is not equal to one of its children. -/
theorem not_equals_child {type : ConjunctionType} {children : List (Expression A)} (hx : x ∈ children) :
    ¬x.equals (.conjunction type children) = true := by
  intro h
  have hle : x.size ≤ (children.map size).sum := single_le_sum (by simp) _ (mem_map_of_mem hx)
  have hsz : (conjunction type children).size = (children.map size).sum + 1 := by
    rw [size, fold, foldChildren_eq]
  have heq := size_eq h
  omega

omit [DecidableEq A] in
theorem evaluate_conjunction (value : A → Option Bool) (type : ConjunctionType) (children : List (Expression A)) :
    (conjunction type children).evaluate value = type.value (children.map (evaluate value)) := by
  rw [evaluate, fold, foldChildren_eq]

omit [DecidableEq A] in
/-- An AND has the value of the conjunction of its members, and so has every other expression. -/
theorem evaluate_members (value : A → Option Bool) (x : Expression A) :
    x.evaluate value = ThreeValued.all (x.members.map (evaluate value)) := by
  cases x with
  | opaqueExpression a => exact (ThreeValued.all_singleton _).symm
  | conjunction type children =>
    cases type with
    | conjunctionAnd => exact evaluate_conjunction value _ children
    | conjunctionOr => exact (ThreeValued.all_singleton _).symm

end Expression

/-! ## Moving the candidates -/

open Expression

variable {expr : Expression A} {rest : List (Expression A)} {value : A → Option Bool}

/-- A child of which `rest` is left -/
def shape (rest : List (Expression A)) : Option (Expression A) :=
  if rest.isEmpty then none else some (conjunctionOf .conjunctionAnd rest)

omit [DecidableEq A] in
theorem conjunctionOf_of_two {type : ConjunctionType} (h : 2 ≤ rest.length) :
    conjunctionOf type rest = .conjunction type rest := by
  match rest, h with
  | _ :: _ :: _, _ => rfl

omit [DecidableEq A] in
theorem shape_members {child : Expression A} (h : child.HasTwo) : shape child.members = some child := by
  cases child with
  | opaqueExpression a => rfl
  | conjunction type children =>
    cases type with
    | conjunctionAnd =>
      have hne : children.isEmpty = false := by simpa using ne_nil_of_length_pos (zero_lt_two.trans_le h)
      rw [members, shape, hne, conjunctionOf_of_two h]
      rfl
    | conjunctionOr => rfl

omit [DecidableEq A] in
theorem evaluate_conjunctionOf (type : ConjunctionType) (children : List (Expression A)) :
    (conjunctionOf type children).evaluate value = type.value (children.map (evaluate value)) := by
  match children with
  | [] => exact evaluate_conjunction value type []
  | [child] =>
    cases type with
    | conjunctionAnd => exact (ThreeValued.all_singleton _).symm
    | conjunctionOr => exact (ThreeValued.any_singleton _).symm
  | _ :: _ :: _ => exact evaluate_conjunction value type _

/-- An expression that is left of a child is extracted. -/
theorem extractExpression_shape (htwo : ∀ m ∈ rest, m.HasTwo) (h : ∃ m ∈ rest, m.equals expr = true) :
    ∃ result ∈ rest, result.equals expr = true ∧
      extractExpression expr (shape rest) = some (result, shape (rest.eraseP (·.equals expr))) := by
  obtain ⟨m, hm, heqs⟩ := h
  match rest with
  | [child] =>
    obtain rfl := mem_singleton.1 hm
    cases m with
    | opaqueExpression a => simp [extractExpression, shape, conjunctionOf, heqs]
    | conjunction type children =>
      cases type with
      | conjunctionOr => simp [extractExpression, shape, conjunctionOf, heqs]
      | conjunctionAnd =>
        -- The AND is what is left of another one, and none of its own children is extracted.
        have hnot : ∀ child ∈ children, ¬child.equals expr = true :=
          fun child hch h => not_equals_child hch (equals_trans h (equals_symm heqs))
        have hshp : shape [conjunction .conjunctionAnd children] = some (conjunction .conjunctionAnd children) := rfl
        rw [hshp, extractExpression, eraseP_of_forall_not hnot, find?_eq_none.2 hnot,
          conjunctionOf_of_two (htwo _ hm)]
        simp [shape, heqs]
  | first :: second :: rest =>
    obtain ⟨result, hres⟩ := Option.isSome_iff_exists.1 ((find?_isSome (p := (·.equals expr))).2 ⟨m, hm, heqs⟩)
    have hshp : shape (first :: second :: rest) = some (conjunction .conjunctionAnd (first :: second :: rest)) := rfl
    have hlen := length_eraseP_of_mem (p := (·.equals expr)) hm heqs
    have hne : ((first :: second :: rest).eraseP (·.equals expr)).isEmpty = false := by
      rw [isEmpty_eq_false_iff, ← length_pos_iff, hlen]
      exact Nat.succ_pos _
    refine ⟨result, mem_of_find?_eq_some hres, by simpa using find?_some hres, ?_⟩
    rw [hshp, extractExpression, hres, shape, hne]
    rfl

variable {newRoot pending : List (Expression A)} {child : Expression A}

/-- What is left of a child after the expressions of the new root were taken out of it, and the pending ones were
    not -/
structure Remains (newRoot pending : List (Expression A)) (child : Expression A)
    (rest : List (Expression A)) : Prop where
  two : ∀ m ∈ rest, m.HasTwo
  values : ∀ value a, a ∈ child.members.map (evaluate value) ↔
    a ∈ newRoot.map (evaluate value) ∨ a ∈ rest.map (evaluate value)
  pending : ∀ e ∈ pending, ∃ m ∈ rest, m.equals e = true

theorem Remains.step (h : Remains newRoot (expr :: pending) child rest) {result : Expression A}
    (hres : result.equals expr = true) (hnot : ∀ e ∈ pending, ¬expr.equals e = true) :
    Remains (newRoot ++ [result]) pending child (rest.eraseP (·.equals expr)) where
  two m hm := h.two m (mem_of_mem_eraseP hm)
  values value a := by
    obtain ⟨m, hm, heqs⟩ := h.pending expr mem_cons_self
    obtain ⟨m', before, after, -, heqs', hrst, herase⟩ := exists_of_eraseP (p := (·.equals expr)) hm heqs
    have hval : evaluate value result = evaluate value m' :=
      evaluate_eq value (equals_trans hres (equals_symm heqs'))
    rw [h.values, herase, hrst]
    simp only [map_append, map_cons, mem_append, mem_cons, hval]
    tauto
  pending e he := by
    obtain ⟨m, hm, heqs⟩ := h.pending e (mem_cons_of_mem _ he)
    refine ⟨m, (mem_eraseP_of_neg fun heqs' => hnot e he ?_).2 hm, heqs⟩
    exact equals_trans (equals_symm heqs') heqs

theorem mapM_of_forall₂ {α β γ δ : Type*} {R : α → β → Prop} {l : List α} {l' : List β} (h : Forall₂ R l l')
    {f : γ → Option δ} {g : β → γ} {k : β → δ} (hf : ∀ x y, R x y → f (g y) = some (k y)) :
    (l'.map g).mapM f = some (l'.map k) := by
  induction h with
  | nil => rfl
  | cons hxy hl ih =>
    rw [map_cons, mapM_cons, hf _ _ hxy, ih]
    rfl

/-- A step of the loop over the candidates -/
theorem moveCandidate_spec {children : List (Expression A)} {rests : List (List (Expression A))}
    (hchs : children ≠ []) (h : Forall₂ (Remains newRoot (expr :: pending)) children rests)
    (hnot : ∀ e ∈ pending, ¬expr.equals e = true) :
    ∃ result, ∃ rests' : List (List (Expression A)),
      Forall₂ (Remains (newRoot ++ [result]) pending) children rests' ∧
        moveCandidate (newRoot, rests.map shape) expr = some (newRoot ++ [result], rests'.map shape) := by
  cases h with
  | nil => exact absurd rfl hchs
  | @cons first rest children rests hfst hrests =>
    obtain ⟨result, -, hres, hextract⟩ := extractExpression_shape hfst.two (hfst.pending expr mem_cons_self)
    refine ⟨result, (rest :: rests).map (·.eraseP (·.equals expr)), ?_, ?_⟩
    · exact forall₂_map_right_iff.2 ((Forall₂.cons hfst hrests).imp fun _ _ h => h.step hres hnot)
    · -- The other children lose what is equal to the expression taken out of the first one.
      have heq : (fun m : Expression A => m.equals result) = fun m => m.equals expr := by
        funext m
        exact Bool.eq_iff_iff.2 ⟨(equals_trans · hres), (equals_trans · (equals_symm hres))⟩
      have hoths := mapM_of_forall₂ (f := fun child => (extractExpression result child).map (·.2)) (g := shape)
        (k := fun rest => shape (rest.eraseP (·.equals expr))) hrests fun _ rest h => by
          obtain ⟨m, hm, heqs⟩ := h.pending expr mem_cons_self
          obtain ⟨_, _, _, hextract'⟩ := extractExpression_shape h.two ⟨m, hm, equals_trans heqs (equals_symm hres)⟩
          rw [hextract', heq]
          rfl
      rw [map_cons, moveCandidate, hextract]
      simp only [Option.bind_eq_bind, Option.bind_some, hoths, map_map]
      rfl

/-- The loop over the candidates -/
theorem foldlM_moveCandidate {children : List (Expression A)} (hchs : children ≠ []) :
    ∀ {newRoot pending : List (Expression A)} {rests : List (List (Expression A))},
      Forall₂ (Remains newRoot pending) children rests → pending.Pairwise (fun x y => ¬x.equals y = true) →
      ∃ added, ∃ rests' : List (List (Expression A)), Forall₂ (Remains (newRoot ++ added) []) children rests' ∧
          pending.foldlM moveCandidate (newRoot, rests.map shape) = some (newRoot ++ added, rests'.map shape) := by
  intro newRoot pending
  induction pending generalizing newRoot with
  | nil => exact fun h _ => ⟨[], _, by rwa [append_nil], by rw [append_nil]; rfl⟩
  | cons expr pending ih =>
    intro rests h hpw
    obtain ⟨hnot, hpw⟩ := pairwise_cons.1 hpw
    obtain ⟨result, rests', h', hmove⟩ := moveCandidate_spec hchs h hnot
    obtain ⟨added, rests'', h'', hfold⟩ := ih h' hpw
    rw [append_assoc, singleton_append] at h'' hfold
    refine ⟨result :: added, rests'', h'', ?_⟩
    rw [foldlM_cons, hmove]
    exact hfold

/-! ## The candidates -/

theorem foldl_insert (l : List (Expression A)) {set : List (Expression A)}
    (hset : set.Pairwise fun x y => ¬x.equals y = true) :
    (l.foldl insert set).Pairwise (fun x y => ¬x.equals y = true) ∧ ∀ x ∈ l.foldl insert set, x ∈ set ∨ x ∈ l := by
  induction l generalizing set with
  | nil => exact ⟨hset, fun x hx => .inl hx⟩
  | cons expr l ih =>
    have hins : (insert set expr).Pairwise (fun x y => ¬x.equals y = true) ∧
        ∀ x ∈ insert set expr, x ∈ set ∨ x = expr := by
      rw [insert]
      split_ifs with h
      · exact ⟨hset, fun x hx => .inl hx⟩
      · refine ⟨pairwise_append.2 ⟨hset, pairwise_singleton _ _, fun x hx y hy heqs => ?_⟩, by simp⟩
        exact h (any_eq_true.2 ⟨x, hx, mem_singleton.1 hy ▸ heqs⟩)
    refine ⟨(ih hins.1).1, fun x hx => ?_⟩
    rcases (ih hins.1).2 x hx with h | h
    · exact (hins.2 x h).imp_right fun h => mem_cons.2 (.inl h)
    · exact .inr (mem_cons_of_mem _ h)

theorem candidateSet_spec (children : List (Expression A)) :
    (candidateSet children).Pairwise (fun x y => ¬x.equals y = true) ∧
      ∀ e ∈ candidateSet children, ∀ child ∈ children, ∃ m ∈ child.members, m.equals e = true := by
  cases children with
  | nil => exact ⟨.nil, fun _ _ _ h => nomatch h⟩
  | cons first children =>
    have hmembers (child : Expression A) := foldl_insert child.members .nil
    suffices h : ∀ candidates : List (Expression A), candidates.Pairwise (fun x y => ¬x.equals y = true) →
        (children.foldl (fun candidates child => candidates.filter fun expr =>
          (addExpressionSet child).any (·.equals expr)) candidates).Pairwise (fun x y => ¬x.equals y = true) ∧
        ∀ e ∈ children.foldl (fun candidates child => candidates.filter fun expr =>
          (addExpressionSet child).any (·.equals expr)) candidates,
          e ∈ candidates ∧ ∀ child ∈ children, ∃ m ∈ child.members, m.equals e = true by
      refine ⟨(h _ (hmembers first).1).1, fun e he => forall_mem_cons.2 ⟨?_, ((h _ (hmembers first).1).2 e he).2⟩⟩
      exact ⟨e, ((hmembers first).2 e ((h _ (hmembers first).1).2 e he).1).resolve_left not_mem_nil, equals_refl e⟩
    induction children with
    | nil => exact fun candidates h => ⟨h, fun e he => ⟨he, forall_mem_nil _⟩⟩
    | cons child children ih =>
      intro candidates h
      refine ⟨(ih _ (h.filter _)).1, fun e he => ?_⟩
      obtain ⟨hmem, hall⟩ := (ih _ (h.filter _)).2 e he
      obtain ⟨hcandidate, hany⟩ := mem_filter.1 hmem
      obtain ⟨m, hm, heqs⟩ := any_eq_true.1 hany
      exact ⟨hcandidate, forall_mem_cons.2 ⟨⟨m, ((hmembers child).2 m hm).resolve_left not_mem_nil, heqs⟩, hall⟩⟩

/-! ## The result -/

variable {children : List (Expression A)} {rests : List (List (Expression A))}

theorem evaluate_finish (hne : children ≠ []) (hrests : Forall₂ (Remains newRoot []) children rests) :
    (finish newRoot (rests.map shape)).evaluate value =
      (Expression.conjunction .conjunctionOr children).evaluate value := by
  -- The OR, with the members of its children sorted into what was taken out and what is left.
  have hchs : children.map (evaluate value) = (rests.map (map (evaluate value))).map fun rest =>
      ThreeValued.all (newRoot.map (evaluate value) ++ rest) := by
    rw [map_map]
    refine forall₂_eq_eq_eq ▸ forall₂_map_left_iff.2 (forall₂_map_right_iff.2 ?_)
    refine hrests.imp fun child rest h => (evaluate_members value child).trans (ThreeValued.all_congr fun a => ?_)
    rw [h.values, mem_append]
  rw [evaluate_conjunction, hchs, ConjunctionType.value]
  by_cases hnil : [] ∈ rests
  · have hno : (rests.map shape).any Option.isNone = true := any_eq_true.2 ⟨_, mem_map_of_mem hnil, rfl⟩
    rw [finish, if_pos hno, evaluate_conjunctionOf, ThreeValued.any_all_append_nil (mem_map.2 ⟨[], hnil, rfl⟩)]
    rfl
  · have hshp : rests.map shape = (rests.map (conjunctionOf .conjunctionAnd)).map some := by
      rw [map_map]
      refine map_congr_left fun rest hrst => if_neg ?_
      rw [List.isEmpty_iff]
      exact ne_of_mem_of_not_mem hrst hnil
    have hbranches : rests.map (map (evaluate value)) ≠ [] := by
      rintro h
      obtain rfl := map_eq_nil_iff.1 h
      exact hne (forall₂_nil_right_iff.1 hrests)
    rw [finish, hshp, if_neg (by simp), ThreeValued.any_all_append hbranches, evaluate_conjunctionOf, map_append,
      map_singleton, evaluate_conjunctionOf, filterMap_map, Function.id_comp, filterMap_some, map_map, map_map]
    refine congrArg (fun a => ThreeValued.all (newRoot.map (evaluate value) ++ [ThreeValued.any a])) ?_
    exact map_congr_left fun rest _ => evaluate_conjunctionOf .conjunctionAnd rest

/-- For every order of the candidates, no assertion fails, and the result has the value of the OR. -/
theorem apply_sound {traverse : List (Expression A) → List (Expression A)} (htraverse : ∀ l, traverse l ~ l)
    (hchildren : ∀ child ∈ children, child.HasTwo ∧ ∀ m ∈ child.members, m.HasTwo) :
    ∃ result, apply traverse children = some result ∧ ∀ expr ∈ result, ∀ value,
      expr.evaluate value = (Expression.conjunction .conjunctionOr children).evaluate value := by
  obtain ⟨hpw, hcomn⟩ := candidateSet_spec children
  by_cases hemp : candidateSet children = []
  · exact ⟨none, by rw [apply, if_pos hemp], fun _ h => nomatch h⟩
  · have hne : children ≠ [] := by
      rintro rfl
      exact hemp rfl
    have hst : Forall₂ (Remains [] (traverse (candidateSet children))) children (children.map members) := by
      refine forall₂_map_right_iff.2 (forall₂_same.2 fun child hch => ⟨(hchildren child hch).2, ?_, ?_⟩)
      · exact fun _ _ => (or_iff_right not_mem_nil).symm
      · exact fun e he => hcomn e ((htraverse _).mem_iff.1 he) child hch
    have hsome : (children.map members).map shape = children.map some := by
      rw [map_map]
      exact map_congr_left fun child hch => shape_members (hchildren child hch).1
    obtain ⟨added, rests, hrests, hfold⟩ := foldlM_moveCandidate hne hst
      ((htraverse _).symm.pairwise hpw fun h h' => h (equals_symm h'))
    rw [hsome] at hfold
    refine ⟨some (finish added (rests.map shape)), by rw [apply, if_neg hemp, hfold]; rfl, ?_⟩
    intro expr hexpr value
    rw [← Option.some.inj hexpr]
    exact evaluate_finish hne hrests

/-- `(X AND A) OR (X AND B)` -/
theorem apply_sound_pair : ∃ result,
    apply id [.conjunction .conjunctionAnd [.opaqueExpression 0, .opaqueExpression 1],
      .conjunction .conjunctionAnd [.opaqueExpression 0, .opaqueExpression 2]] = some result ∧
    ∀ expr ∈ result, ∀ value : ℕ → Option Bool, expr.evaluate value =
      (Expression.conjunction .conjunctionOr [.conjunction .conjunctionAnd [.opaqueExpression 0, .opaqueExpression 1],
        .conjunction .conjunctionAnd [.opaqueExpression 0, .opaqueExpression 2]]).evaluate value :=
  apply_sound (fun _ => .refl _) (by simp [HasTwo, members])

end WfOpt.DistributivityRule

import WfOpt.Lib.Lex

/-!
# Ordered codes

An *ordered code* maps values to lists such that the lists are ordered as the values are, and no
list is a proper prefix of another (`OrderedCode`). Such codes can be put together: of pairs, of
values that may be missing, and of lists, which are terminated. A code is turned
around by a map that reverses the order of the symbols.
-/

namespace WfOpt

open List

variable {α γ β : Type*} [LinearOrder β]

/-- The lists are ordered as the values are, and they are prefix-free. -/
structure OrderedCode (lt : α → α → Prop) (code : α → List β) : Prop where
  lt_iff : ∀ x y, code x < code y ↔ lt x y
  inj : ∀ x y, code x = code y → x = y
  prefixFree : ∀ x y, PrefixFree (code x) (code y)

namespace OrderedCode

variable {lt : α → α → Prop} {code : α → List β}

theorem eq_iff (h : OrderedCode lt code) (x y : α) : code x = code y ↔ x = y := ⟨h.inj x y, fun h => by rw [h]⟩

theorem congr {lt' : α → α → Prop} (h : OrderedCode lt code) (hlt : ∀ x y, lt' x y ↔ lt x y) :
    OrderedCode lt' code :=
  ⟨fun x y => (h.lt_iff x y).trans (hlt x y).symm, h.inj, h.prefixFree⟩

/-- A code of some of the values. -/
theorem comap (h : OrderedCode lt code) {f : γ → α} (hf : Function.Injective f) :
    OrderedCode (fun x y => lt (f x) (f y)) (fun x => code (f x)) :=
  ⟨fun x y => h.lt_iff (f x) (f y), fun _ _ heq => hf (h.inj _ _ heq), fun x y => h.prefixFree (f x) (f y)⟩

theorem of_length {n : ℕ} (hlen : ∀ x, (code x).length = n)
    (hlt : ∀ x y, code x < code y ↔ lt x y) (hinj : ∀ x y, code x = code y → x = y) :
    OrderedCode lt code :=
  ⟨hlt, hinj, fun x y => .of_length_eq ((hlen x).trans (hlen y).symm)⟩

theorem unit : OrderedCode (fun _ _ : Unit => False) fun _ => ([] : List β) :=
  of_length (fun _ => rfl) (fun _ _ => by simp) fun _ _ _ => rfl

/-! ## Pairs -/

/-- Pairs are ordered by their first parts, and by their second ones if these are equal. -/
theorem prod {lt' : γ → γ → Prop} {code' : γ → List β} (h : OrderedCode lt code) (h' : OrderedCode lt' code') :
    OrderedCode (fun x y : α × γ => lt x.1 y.1 ∨ (x.1 = y.1 ∧ lt' x.2 y.2))
      fun x => code x.1 ++ code' x.2 := by
  refine ⟨fun x y => ?_, fun x y heq => ?_, fun x y => ?_⟩
  · rw [append_lt_append_iff (h.prefixFree _ _), h.lt_iff, h.eq_iff, h'.lt_iff]
  · rw [append_eq_append_iff_of_prefixFree (h.prefixFree _ _)] at heq
    exact Prod.ext (h.inj _ _ heq.1) (h'.inj _ _ heq.2)
  · exact (h.prefixFree _ _).append (h'.prefixFree _ _)

/-! ## Missing values -/

/-- A value that may be missing is marked by its first symbol. -/
theorem option {missing present : β} (hne : missing ≠ present) (tail : List β)
    (h : OrderedCode lt code) {lt' : Option α → Option α → Prop} (hno : ¬lt' none none)
    (hmiss : ∀ y, lt' none (some y) ↔ missing < present)
    (hpresent : ∀ x, lt' (some x) none ↔ present < missing)
    (hsome : ∀ x y, lt' (some x) (some y) ↔ lt x y) :
    OrderedCode lt' fun x => match x with
      | none => missing :: tail
      | some x => present :: code x := by
  have hcons : ∀ {a b : β} {l l' : List β}, a ≠ b → PrefixFree (a :: l) (b :: l') := by
    intro a b l l' hab
    exact ⟨fun h => absurd (cons_prefix_cons.1 h).1 hab, fun h => absurd (cons_prefix_cons.1 h).1 hab.symm⟩
  refine ⟨fun x y => ?_, fun x y heq => ?_, fun x y => ?_⟩
  · cases x with
    | none =>
      cases y with
      | none => exact iff_of_false (lt_irrefl _) hno
      | some y =>
        rw [hmiss, cons_lt_cons_iff]
        simp [hne]
    | some x =>
      cases y with
      | none =>
        rw [hpresent, cons_lt_cons_iff]
        simp [hne.symm]
      | some y =>
        rw [hsome, cons_lt_cons_iff]
        simp [h.lt_iff]
  · cases x with
    | none =>
      cases y with
      | none => rfl
      | some y => exact absurd (cons.inj heq).1 hne
    | some x =>
      cases y with
      | none => exact absurd (cons.inj heq).1 hne.symm
      | some y => rw [h.inj x y (cons.inj heq).2]
  · cases x with
    | none =>
      cases y with
      | none => exact .of_length_eq rfl
      | some y => exact hcons hne
    | some x =>
      cases y with
      | none => exact hcons hne.symm
      | some y => exact (h.prefixFree x y).cons present

/-! ## Lists -/

/-- Lists are compared element by element. A list is before those it is a proper prefix of, or
    behind them. -/
def listLt (lt : α → α → Prop) (shorterFirst : Prop) : List α → List α → Prop
  | [], [] => False
  | [], _ :: _ => shorterFirst
  | _ :: _, [] => ¬shorterFirst
  | x :: l, y :: l' => lt x y ∨ (x = y ∧ listLt lt shorterFirst l l')

theorem listLt_swap (lt : α → α → Prop) (l l' : List α) :
    listLt (fun x y => lt y x) False l l' ↔ listLt lt True l' l := by
  induction l generalizing l' with
  | nil => cases l' <;> simp [listLt]
  | cons x l ih =>
    cases l' with
    | nil => simp [listLt]
    | cons y l' => simp [listLt, ih, eq_comm]

/-- A list is terminated by a symbol below, or above, all that elements start with. -/
theorem list {d : β} (h : OrderedCode lt code) (shorterFirst : Prop)
    (hfst : ∀ x, ∃ b l, code x = b :: l ∧ b ≠ d ∧ (d < b ↔ shorterFirst)) :
    OrderedCode (listLt lt shorterFirst) fun l => l.flatMap code ++ [d] := by
  have hend : ∀ x l, PrefixFree [d] ((x :: l).flatMap code ++ [d]) ∧ [d] ≠ (x :: l).flatMap code ++ [d] := by
    intro x l
    obtain ⟨b, t, hcode, hne, -⟩ := hfst x
    rw [flatMap_cons, hcode, cons_append, cons_append]
    exact ⟨⟨fun h => absurd (cons_prefix_cons.1 h).1 hne.symm,
      fun h => absurd (cons_prefix_cons.1 h).1 hne⟩, fun h => hne (cons.inj h).1.symm⟩
  refine ⟨fun l l' => ?_, fun l l' heq => ?_, fun l l' => ?_⟩
  · induction l generalizing l' with
    | nil =>
      cases l' with
      | nil => simp [listLt]
      | cons y l' =>
        obtain ⟨b, t, hcode, hne, hd⟩ := hfst y
        rw [listLt, flatMap_cons, hcode, flatMap_nil, nil_append, cons_append, cons_append, cons_lt_cons_iff, hd]
        simp [hne.symm]
    | cons x l ih =>
      cases l' with
      | nil =>
        obtain ⟨b, t, hcode, hne, hd⟩ := hfst x
        rw [listLt, flatMap_cons, hcode, flatMap_nil, nil_append, cons_append,
          cons_append, cons_lt_cons_iff, ← hd, not_lt, le_iff_lt_or_eq]
        simp [hne]
      | cons y l' =>
        rw [listLt, flatMap_cons, flatMap_cons, append_assoc, append_assoc,
          append_lt_append_iff (h.prefixFree x y), h.lt_iff, h.eq_iff, ih]
  · induction l generalizing l' with
    | nil =>
      cases l' with
      | nil => rfl
      | cons y l' => exact absurd heq (hend y l').2
    | cons x l ih =>
      cases l' with
      | nil => exact absurd heq.symm (hend x l).2
      | cons y l' =>
        simp only [flatMap_cons, append_assoc] at heq
        rw [append_eq_append_iff_of_prefixFree (h.prefixFree x y)] at heq
        rw [h.inj x y heq.1, ih l' heq.2]
  · induction l generalizing l' with
    | nil =>
      cases l' with
      | nil => exact .of_length_eq rfl
      | cons y l' => exact (hend y l').1
    | cons x l ih =>
      cases l' with
      | nil => exact (hend x l).1.symm
      | cons y l' =>
        simp only [flatMap_cons, append_assoc]
        exact (h.prefixFree x y).append (ih l')

/-! ## Reversed order -/

theorem reverse {f : β → β} (hf : StrictAnti f) (h : OrderedCode lt code) :
    OrderedCode (fun x y => lt y x) fun x => (code x).map f := by
  refine ⟨fun x y => ?_, fun x y heq => ?_, fun x y => ?_⟩
  · rw [map_lt_map_iff_of_strictAnti hf (h.prefixFree x y), h.lt_iff]
  · exact h.inj x y (map_injective_iff.2 hf.injective heq)
  · exact (h.prefixFree x y).map hf.injective

end OrderedCode

end WfOpt

import Mathlib

/-!
# Undo buffers

The changes of a transaction are entries of its undo buffer, which is a list of chunks of memory. A commit that
fails at one of the entries is reverted: the loop goes through the entries again, up to the position of the first
loop. A rollback goes through the entries in reverse order. The entries that are reverted are those that the commit
has seen, including the one at which it failed (`UndoHandlers.commit_eq`).
-/

namespace WfOpt

open List Option

/-- `UNDO_ENTRY_HEADER_SIZE`: the type and the length of an entry are in front of it. -/
def undoEntryHeaderSize : ℕ := 8

/-- `UndoBufferEntry`: a chunk of the undo buffer has entries, each of which takes some bytes. -/
abbrev UndoChunk (E : Type*) := List (ℕ × E)

/-- `UndoBuffer::IteratorState`: the chunk, and the position in it. -/
structure IteratorState where
  current : Option ℕ
  start : ℕ

variable {E σ : Type*}

namespace UndoChunk

/-- The bytes that are in use. -/
def position (c : UndoChunk E) : ℕ := (c.map fun e => undoEntryHeaderSize + e.1).sum

/-- The loop over a chunk, up to a position. If an error is thrown, it stops behind the header of the
    entry. -/
def iterate (callback : E → σ → Option (σ × Option String)) (last : ℕ) :
    UndoChunk E → ℕ → σ → Option (σ × ℕ × Option String)
  | [], start, s => some (s, start, none)
  | e :: c, start, s =>
    if start < last then
      (callback e.2 s).bind fun
        | (s, some message) => some (s, start + undoEntryHeaderSize, some message)
        | (s, none) => iterate callback last c (start + undoEntryHeaderSize + e.1) s
    else some (s, start, none)

end UndoChunk

/-- `IterateEntries`, from a chunk on -/
def iterateEntries (callback : E → σ → Option (σ × Option String)) :
    List (UndoChunk E) → ℕ → ℕ → σ → Option (σ × IteratorState × Option String)
  | [], _, start, s => some (s, ⟨none, start⟩, none)
  | c :: b, current, _, s =>
    (c.iterate callback c.position 0 s).bind fun
      | (s, start, some message) => some (s, ⟨some current, start⟩, some message)
      | (s, start, none) => iterateEntries callback b (current + 1) start s

/-- `IterateEntries` up to where another iterator is -/
def iterateEntriesUntil (callback : E → σ → Option (σ × Option String)) (last : IteratorState) :
    List (UndoChunk E) → ℕ → σ → Option (σ × Option String)
  | [], _, s => some (s, none)
  | c :: b, current, s =>
    (c.iterate callback (if last.current = some current then last.start else c.position) 0 s).bind fun
      | (s, _, some message) => some (s, some message)
      | (s, _, none) =>
        if last.current = some current then some (s, none)
        else iterateEntriesUntil callback last b (current + 1) s

/-- `ReverseIterateEntries` -/
def reverseIterateEntries (callback : E → σ → Option σ) (b : List (UndoChunk E)) (s : σ) : Option σ :=
  b.reverse.foldlM (fun s c => (c.map Prod.snd).reverse.foldlM (fun s e => callback e s) s) s

/-- What is done with an entry when the transaction is committed, when this is reverted, and when it is rolled
    back. -/
structure UndoHandlers (E σ : Type*) where
  commitEntry : E → σ → Option (σ × Option String)
  revertEntry : E → σ → Option σ
  rollbackEntry : E → σ → Option σ

namespace UndoHandlers

variable (h : UndoHandlers E σ)

/-- `UndoBuffer::RevertCommit` -/
def revertCommit (b : List (UndoChunk E)) (last : IteratorState) (s : σ) : Option σ :=
  (iterateEntriesUntil (fun e s => (h.revertEntry e s).map fun s => (s, none)) last b 0 s).map Prod.fst

/-- `DuckTransaction::Commit`: the commit of the local storage may fail before, the flush of the log behind. -/
def commit (b : List (UndoChunk E)) (storageError flushError : Option String) (s : σ) : Option (σ × Option String) :=
  match storageError with
  | some message => (h.revertCommit b ⟨none, 0⟩ s).map fun s => (s, some message)
  | none =>
    (iterateEntries h.commitEntry b 0 0 s).bind fun (s, state, error) =>
      match error.or flushError with
      | some message => (h.revertCommit b state s).map fun s => (s, some message)
      | none => some (s, none)

/-- `DuckTransaction::Rollback` -/
def rollback (b : List (UndoChunk E)) (s : σ) : Option σ := reverseIterateEntries h.rollbackEntry b s

/-- `CommitTransaction`: if the commit fails, the transaction is rolled back. -/
def commitTransaction (b : List (UndoChunk E)) (storageError flushError : Option String) (s : σ) :
    Option (σ × Option String) :=
  (h.commit b storageError flushError s).bind fun
    | (s, some message) => (h.rollback b s).map fun s => (s, some message)
    | (s, none) => some (s, none)

/-- All states that the entries lead to are kept. -/
def observed : UndoHandlers E (σ × List σ) where
  commitEntry e s := (h.commitEntry e s.1).map fun s' => ((s'.1, s'.1 :: s.2), s'.2)
  revertEntry e s := (h.revertEntry e s.1).map fun s' => (s', s' :: s.2)
  rollbackEntry e s := (h.rollbackEntry e s.1).map fun s' => (s', s' :: s.2)

end UndoHandlers

/-! ## Positions -/

/-- The entries of an undo buffer. -/
def undoEntries (b : List (UndoChunk E)) : List E := b.flatMap fun c => c.map Prod.snd

/-- What is done with entries, until there is an error, and the entries that have been seen. -/
def runEntries (callback : E → σ → Option (σ × Option String)) : List E → σ → Option (σ × List E × Option String)
  | [], s => some (s, [], none)
  | e :: l, s =>
    (callback e s).bind fun
      | (s, some message) => some (s, [e], some message)
      | (s, none) => (runEntries callback l s).map fun r => (r.1, e :: r.2.1, r.2.2)

/-- A callback that does not throw errors. -/
abbrev noThrow (f : E → σ → Option σ) (e : E) (s : σ) : Option (σ × Option String) := (f e s).map fun s => (s, none)

variable {callback : E → σ → Option (σ × Option String)}

theorem runEntries_append (l l' : List E) : ∀ s : σ, runEntries callback (l ++ l') s =
    (runEntries callback l s).bind fun
      | (s, done, some message) => some (s, done, some message)
      | (s, done, none) => (runEntries callback l' s).map fun r => (r.1, done ++ r.2.1, r.2.2) := by
  induction l with
  | nil =>
    intro s
    cases hrun : runEntries callback l' s with
    | none => simp only [nil_append, runEntries, bind_some, hrun, map_none]
    | some r => simp only [nil_append, runEntries, bind_some, hrun, map_some]
  | cons e l ih =>
    intro s
    rw [cons_append, runEntries, runEntries]
    cases callback e s with
    | none => rfl
    | some r =>
      obtain ⟨s', error⟩ := r
      cases error with
      | some message => rfl
      | none =>
        rw [bind_some, bind_some]
        dsimp only
        rw [ih]
        cases runEntries callback l s' with
        | none => rfl
        | some r =>
          obtain ⟨s'', done, error⟩ := r
          cases error with
          | some message => rfl
          | none =>
            simp only [bind_some, Option.map_map]
            rfl

namespace UndoChunk

theorem position_cons (e : ℕ × E) (c : UndoChunk E) :
    UndoChunk.position (e :: c) = undoEntryHeaderSize + e.1 + UndoChunk.position c := sum_cons

/-- A loop up to a position goes through the entries that start before it. -/
theorem iterate_until (f : E → σ → Option σ) (last : ℕ) (d rest : UndoChunk E) : ∀ (start : ℕ) (s : σ),
    (∀ i < d.length, start + UndoChunk.position (d.take i) < last) → last ≤ start + d.position →
      UndoChunk.iterate (noThrow f) last (d ++ rest) start s =
        ((d.map Prod.snd).foldlM (fun s e => f e s) s).map fun s => (s, start + d.position, none) := by
  induction d with
  | nil =>
    intro start s _ hlst
    have hstp : ¬start < last := Nat.not_lt.2 hlst
    cases rest with
    | nil => rfl
    | cons e rest =>
      rw [nil_append, iterate, if_neg hstp]
      rfl
  | cons e d ih =>
    intro start s hlt hlst
    have hfst : start < last := hlt 0 (Nat.succ_pos _)
    rw [position_cons] at hlst ⊢
    rw [cons_append, iterate, if_pos hfst, map_cons, foldlM_cons]
    cases hf : f e.2 s with
    | none =>
      rw [noThrow, hf]
      rfl
    | some s' =>
      rw [noThrow, hf, map_some, bind_some]
      dsimp only
      rw [ih _ s' (fun i hi => ?_) (by omega)]
      · simp only [Nat.add_assoc]
        rfl
      · have h := hlt (i + 1) (Nat.succ_lt_succ hi)
        rw [take_succ_cons, position_cons] at h
        omega

/-- The loop over a chunk stops at the end or behind the header of an entry. A loop up to there goes through the same
    entries. -/
theorem iterate_eq (callback : E → σ → Option (σ × Option String)) (c : UndoChunk E) : ∀ (start : ℕ) (s : σ),
    (c.iterate callback (start + c.position) start s = none ∧ runEntries callback (c.map Prod.snd) s = none) ∨
      ∃ s' d rest error stop, c = d ++ rest ∧
        c.iterate callback (start + c.position) start s = some (s', stop, error) ∧
        runEntries callback (c.map Prod.snd) s = some (s', d.map Prod.snd, error) ∧
        (error = none → rest = []) ∧
        (error ≠ none → start < stop ∧ (∀ i < d.length, start + UndoChunk.position (d.take i) < stop) ∧
          stop ≤ start + UndoChunk.position d) := by
  induction c with
  | nil => exact fun start s => .inr ⟨s, [], [], none, start, rfl, rfl, rfl, fun _ => rfl, fun h => absurd rfl h⟩
  | cons e c ih =>
    intro start s
    have hpos : start < start + UndoChunk.position (e :: c) := by
      rw [position_cons, undoEntryHeaderSize]
      omega
    have hlst : start + UndoChunk.position (e :: c) = start + undoEntryHeaderSize + e.1 + UndoChunk.position c := by
      rw [position_cons]
      omega
    rw [iterate, if_pos hpos, map_cons, runEntries]
    cases hcallback : callback e.2 s with
    | none => exact .inl ⟨rfl, rfl⟩
    | some r =>
      obtain ⟨s', error⟩ := r
      cases error with
      | some message =>
        have hstp : start < start + undoEntryHeaderSize := Nat.lt_add_of_pos_right (by decide)
        refine .inr ⟨s', [e], c, some message, start + undoEntryHeaderSize, rfl, rfl, rfl, (fun h => nomatch h),
          fun _ => ⟨hstp, fun i hi => ?_, ?_⟩⟩
        · obtain rfl := Nat.lt_one_iff.1 hi
          exact hstp
        · rw [position_cons]
          omega
      | none =>
        rw [bind_some, bind_some, hlst]
        dsimp only
        rcases ih (start + undoEntryHeaderSize + e.1) s' with ⟨hno, hno'⟩ |
          ⟨s'', d, rest, error, stop, rfl, hiterate, hrun, hdone, hstp⟩
        · rw [hno, hno']
          exact .inl ⟨rfl, rfl⟩
        · rw [hiterate, hrun]
          refine .inr ⟨s'', e :: d, rest, error, stop, rfl, rfl, rfl, hdone, fun herror => ?_⟩
          obtain ⟨hfst, hlt, hle⟩ := hstp herror
          refine ⟨by omega, fun i hi => ?_, ?_⟩
          · cases i with
            | zero =>
              have hz : start + UndoChunk.position (take 0 (e :: d)) = start := rfl
              omega
            | succ i =>
              have h := hlt i (Nat.lt_of_succ_lt_succ hi)
              rw [take_succ_cons, position_cons]
              omega
          · rw [position_cons]
            omega

/-- Each entry starts before the end. -/
theorem position_take_lt (c : UndoChunk E) : ∀ {i : ℕ}, i < c.length →
    UndoChunk.position (c.take i) < UndoChunk.position c := by
  induction c with
  | nil => exact fun hi => absurd hi (Nat.not_lt_zero _)
  | cons e c ih =>
    intro i hi
    rw [position_cons, undoEntryHeaderSize]
    cases i with
    | zero =>
      have hz : UndoChunk.position (take 0 (e :: c)) = 0 := rfl
      omega
    | succ i =>
      have h := ih (Nat.lt_of_succ_lt_succ hi)
      rw [take_succ_cons, position_cons, undoEntryHeaderSize]
      omega

/-- A loop over a whole chunk. -/
theorem iterate_all (f : E → σ → Option σ) (c : UndoChunk E) (s : σ) :
    UndoChunk.iterate (noThrow f) c.position c 0 s =
      ((c.map Prod.snd).foldlM (fun s e => f e s) s).map fun s => (s, c.position, none) := by
  have h := iterate_until f c.position c [] 0 s
    (fun i hi => by rw [Nat.zero_add]; exact position_take_lt c hi) (Nat.zero_add _).ge
  rwa [append_nil, Nat.zero_add] at h

end UndoChunk

/-- After a loop, the iterator is behind the entries that have been seen. -/
theorem iterateEntries_spec (callback : E → σ → Option (σ × Option String)) (b : List (UndoChunk E)) : ∀ (current start : ℕ) (s : σ),
    (iterateEntries callback b current start s = none ∧ runEntries callback (undoEntries b) s = none) ∨
      ∃ s' done state error, iterateEntries callback b current start s = some (s', state, error) ∧
        runEntries callback (undoEntries b) s = some (s', done, error) ∧
        (∀ i, state.current = some i → current ≤ i) ∧
        ∀ (f : E → σ → Option σ) (s : σ), iterateEntriesUntil (noThrow f) state b current s =
          (done.foldlM (fun s e => f e s) s).map fun s => (s, none) := by
  induction b with
  | nil => exact fun current start s => .inr ⟨s, [], ⟨none, start⟩, none, rfl, rfl, (fun _ h => nomatch h), fun _ _ => rfl⟩
  | cons c b ih =>
    intro current start s
    have hents : undoEntries (c :: b) = c.map Prod.snd ++ undoEntries b := flatMap_cons
    have hchk := c.iterate_eq callback 0 s
    rw [Nat.zero_add] at hchk
    rw [hents, runEntries_append, iterateEntries]
    rcases hchk with ⟨hno, hno'⟩ | ⟨s', d, rest, error, stop, rfl, hiterate, hrun, hdone, hstp⟩
    · rw [hno, hno']
      exact .inl ⟨rfl, rfl⟩
    · rw [hiterate, hrun]
      cases error with
      | some message =>
        -- the loop of the revert stops in this chunk
        obtain ⟨-, hlt, hle⟩ := hstp (some_ne_none message)
        refine .inr ⟨s', d.map Prod.snd, ⟨some current, stop⟩, some message, rfl, rfl,
          fun i hi => (some.inj hi).le, fun f s => ?_⟩
        rw [iterateEntriesUntil, if_pos rfl, UndoChunk.iterate_until f stop d rest 0 s hlt hle]
        cases (d.map Prod.snd).foldlM (fun s e => f e s) s with
        | none => rfl
        | some s => exact if_pos rfl
      | none =>
        obtain rfl := hdone rfl
        rw [bind_some, bind_some]
        dsimp only
        rcases ih (current + 1) stop s' with ⟨hno, hno'⟩ |
          ⟨s'', done, state, error, hiterate', hrun', hcurr, huntil⟩
        · rw [hno, hno']
          exact .inl ⟨rfl, rfl⟩
        · rw [hiterate', hrun']
          refine .inr ⟨s'', _, state, error, rfl, rfl, fun i hi => (Nat.le_succ _).trans (hcurr i hi), fun f s => ?_⟩
          have hne : state.current ≠ some current := fun heq => absurd (hcurr _ heq) (Nat.not_succ_le_self _)
          rw [append_nil, iterateEntriesUntil, if_neg hne, UndoChunk.iterate_all, foldlM_append]
          cases (map Prod.snd d).foldlM (fun s e => f e s) s with
          | none => rfl
          | some s =>
            rw [map_some, bind_some]
            dsimp only
            rw [if_neg hne, huntil]
            rfl

namespace UndoHandlers

variable (h : UndoHandlers E σ)

/-- The loop of the revert goes through all entries if there is no position. -/
theorem revertCommit_none (b : List (UndoChunk E)) (start : ℕ) (s : σ) :
    h.revertCommit b ⟨none, start⟩ s = (undoEntries b).foldlM (fun s e => h.revertEntry e s) s := by
  have hall : ∀ (current : ℕ) (s : σ), iterateEntriesUntil (noThrow h.revertEntry) ⟨none, start⟩ b current s =
      ((undoEntries b).foldlM (fun s e => h.revertEntry e s) s).map fun s => (s, none) := by
    induction b with
    | nil => exact fun _ _ => rfl
    | cons c b ih =>
      intro current s
      have hents : undoEntries (c :: b) = c.map Prod.snd ++ undoEntries b := flatMap_cons
      have hne : (none : Option ℕ) ≠ some current := fun heq => nomatch heq
      rw [iterateEntriesUntil, if_neg hne, UndoChunk.iterate_all, hents, foldlM_append]
      cases (map Prod.snd c).foldlM (fun s e => h.revertEntry e s) s with
      | none => rfl
      | some s =>
        rw [map_some, bind_some]
        dsimp only
        rw [if_neg hne, ih]
        rfl
  rw [revertCommit, hall, Option.map_map]
  exact congrFun Option.map_id _

/-- If there is an error, exactly the entries up to it are reverted, or all of them if there is no position. -/
theorem commit_eq (b : List (UndoChunk E)) (storageError flushError : Option String) (s : σ) :
    h.commit b storageError flushError s = match storageError with
      | some message => ((undoEntries b).foldlM (fun s e => h.revertEntry e s) s).map fun s => (s, some message)
      | none => (runEntries h.commitEntry (undoEntries b) s).bind fun (s, done, error) =>
        match error.or flushError with
        | some message => (done.foldlM (fun s e => h.revertEntry e s) s).map fun s => (s, some message)
        | none => some (s, none) := by
  cases storageError with
  | some message => exact congrArg (Option.map fun s => (s, some message)) (h.revertCommit_none b 0 s)
  | none =>
    rw [commit]
    rcases iterateEntries_spec h.commitEntry b 0 0 s with ⟨hno, hno'⟩ |
      ⟨s', done, state, error, hiterate, hrun, -, huntil⟩
    · rw [hno, hno']
      rfl
    · rw [hiterate, hrun, bind_some, bind_some]
      dsimp only
      cases error.or flushError with
      | none => rfl
      | some message =>
        have hrev : h.revertCommit b state s' = done.foldlM (fun s e => h.revertEntry e s) s' := by
          rw [revertCommit, huntil, Option.map_map]
          exact congrFun Option.map_id _
        rw [hrev]

/-- A rollback goes through the entries in reverse order. -/
theorem rollback_eq (b : List (UndoChunk E)) : ∀ s : σ,
    h.rollback b s = (undoEntries b).reverse.foldlM (fun s e => h.rollbackEntry e s) s := by
  have hall : ∀ (l : List (UndoChunk E)) (s : σ),
      l.foldlM (fun s c => (c.map Prod.snd).reverse.foldlM (fun s e => h.rollbackEntry e s) s) s =
        (l.flatMap fun c => (c.map Prod.snd).reverse).foldlM (fun s e => h.rollbackEntry e s) s := by
    intro l
    induction l with
    | nil => exact fun _ => rfl
    | cons c l ih =>
      intro s
      rw [foldlM_cons, flatMap_cons, foldlM_append]
      exact congrArg _ (funext ih)
  intro s
  rw [rollback, reverseIterateEntries, hall, undoEntries, reverse_flatMap]
  rfl

end UndoHandlers

end WfOpt

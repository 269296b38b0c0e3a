import Mathlib

/-!
# Byte streams

Numbers are written as little-endian bytes of a given width, one after another, and a *reader* takes bytes from the
front of a stream. That a reader takes what was written and goes on behind it (`Reads`) composes: for a number
(`reads_readNat`), for readers one after another (`Reads.bind`), and for loops (`Reads.times`).
-/

namespace WfOpt

open List

/-! ## Numbers -/

/-- The `w` bytes of a number, the lowest one first. -/
@[simp] def littleEndian : ℕ → ℕ → List UInt8
  | 0, _ => []
  | w + 1, n => UInt8.ofNat n :: littleEndian w (n / 256)

/-- The number that has the bytes. -/
@[simp] def ofLittleEndian : List UInt8 → ℕ
  | [] => 0
  | b :: l => b.toNat + 256 * ofLittleEndian l

@[simp] theorem length_littleEndian (w : ℕ) : ∀ n, (littleEndian w n).length = w := by
  induction w with
  | zero => exact fun _ => rfl
  | succ w ih =>
    intro n
    rw [littleEndian, length_cons, ih]

theorem ofLittleEndian_littleEndian (w : ℕ) : ∀ n, ofLittleEndian (littleEndian w n) = n % 256 ^ w := by
  induction w with
  | zero => exact fun n => (Nat.mod_one n).symm
  | succ w ih =>
    intro n
    rw [littleEndian, ofLittleEndian, ih, UInt8.toNat_ofNat', pow_succ' 256 w]
    exact Nat.mod_mul.symm

theorem ofLittleEndian_lt (l : List UInt8) : ofLittleEndian l < 256 ^ l.length := by
  induction l with
  | nil => exact Nat.one_pos
  | cons b l ih =>
    have hb := b.toNat_lt
    rw [ofLittleEndian, length_cons, pow_succ]
    omega

theorem littleEndian_ofLittleEndian (l : List UInt8) : littleEndian l.length (ofLittleEndian l) = l := by
  induction l with
  | nil => rfl
  | cons b l ih =>
    rw [length_cons, littleEndian, ofLittleEndian, Nat.add_mul_div_left _ _ (by decide),
      Nat.div_eq_of_lt b.toNat_lt, Nat.zero_add, ih]
    refine congrArg (· :: l) (UInt8.toNat_inj.1 ?_)
    rw [UInt8.toNat_ofNat', show 2 ^ 8 = 256 from rfl, Nat.add_mul_mod_self_left, Nat.mod_eq_of_lt b.toNat_lt]

theorem ofLittleEndian_append (l l' : List UInt8) :
    ofLittleEndian (l ++ l') = ofLittleEndian l + 256 ^ l.length * ofLittleEndian l' := by
  induction l with
  | nil => rw [nil_append, ofLittleEndian, length_nil, pow_zero, one_mul, zero_add]
  | cons b l ih =>
    rw [cons_append, ofLittleEndian, ofLittleEndian, ih, length_cons, pow_succ]
    ring

/-! ## Blocks of one length -/

section Blocks

variable {α : Type*} {f : ℕ → List α} {k : ℕ}

theorem length_flatMap_range (hf : ∀ g, (f g).length = k) (n : ℕ) : ((range n).flatMap f).length = k * n := by
  induction n with
  | zero => rfl
  | succ n ih =>
    rw [range_succ, flatMap_append, length_append, ih, flatMap_singleton, hf, Nat.mul_succ]

theorem take_drop_flatMap_range (hf : ∀ g, (f g).length = k) (n : ℕ) :
    ∀ g < n, (((range n).flatMap f).drop (k * g)).take k = f g := by
  induction n with
  | zero => exact fun g hg => absurd hg (Nat.not_lt_zero g)
  | succ n ih =>
    intro g hg
    have hlen := length_flatMap_range hf n
    rw [range_succ, flatMap_append, flatMap_singleton]
    rcases Nat.lt_succ_iff_lt_or_eq.1 hg with hlt | rfl
    · have hle : k * g + k ≤ k * n := Nat.mul_le_mul_left k hlt
      rw [drop_append_of_le_length (by omega), take_append_of_le_length (by rw [length_drop]; omega), ih g hlt]
    · rw [← hlen, drop_left, take_of_length_le (hf g).le]

end Blocks

/-! ## Readers -/

/-- A reader takes bytes from the front of a stream, and fails if there are not enough. -/
abbrev Reader := StateT (List UInt8) Option

/-- The next `n` bytes. -/
def readData (n : ℕ) : Reader (List UInt8) := fun s =>
  if n ≤ s.length then some (s.take n, s.drop n) else none

/-- The next number of `w` bytes. -/
def readNat (w : ℕ) : Reader ℕ := ofLittleEndian <$> readData w

/-- What is read `n` times changes a value. -/
@[simp] def readTimes {σ : Type} (r : σ → Reader σ) : ℕ → σ → Reader σ
  | 0, x => pure x
  | n + 1, x => r x >>= readTimes r n

/-- A reader takes the bytes, whatever is behind them, and returns the value. -/
def Reads {α : Type} (r : Reader α) (s : List UInt8) (x : α) : Prop := ∀ rest, r (s ++ rest) = some (x, rest)

variable {α β σ : Type}

theorem reads_pure (x : α) : Reads (pure x) [] x := fun _ => rfl

theorem Reads.bind {r : Reader α} {f : α → Reader β} {s s' : List UInt8} {x : α} {y : β}
    (h : Reads r s x) (h' : Reads (f x) s' y) : Reads (r >>= f) (s ++ s') y := by
  intro rest
  change (r (s ++ s' ++ rest)).bind _ = _
  rw [append_assoc, h]
  exact h' rest

theorem Reads.map {r : Reader α} {s : List UInt8} {x : α} (h : Reads r s x) (f : α → β) :
    Reads (f <$> r) s (f x) := by
  intro rest
  change (r (s ++ rest)).bind _ = _
  rw [h]
  rfl

theorem reads_readData (s : List UInt8) : Reads (readData s.length) s s := by
  intro rest
  have hle : s.length ≤ (s ++ rest).length := by
    rw [length_append]
    exact Nat.le_add_right _ _
  refine (if_pos hle).trans ?_
  rw [take_left, drop_left]

theorem reads_readNat_mod (w n : ℕ) : Reads (readNat w) (littleEndian w n) (n % 256 ^ w) := by
  have h := (reads_readData (littleEndian w n)).map ofLittleEndian
  rwa [length_littleEndian, ofLittleEndian_littleEndian] at h

theorem reads_readNat {w n : ℕ} (hn : n < 256 ^ w) : Reads (readNat w) (littleEndian w n) n := by
  have h := reads_readNat_mod w n
  rwa [Nat.mod_eq_of_lt hn] at h

/-- A loop over what was written for the elements of a list. -/
theorem Reads.times {γ : Type*} {r : σ → Reader σ} (write : γ → List UInt8) (next : σ → γ → σ) (l : List γ)
    (h : ∀ b ∈ l, ∀ x, Reads (r x) (write b) (next x b)) :
    ∀ x, Reads (readTimes r l.length x) (l.flatMap write) (l.foldl next x) := by
  induction l with
  | nil => exact fun x => reads_pure x
  | cons b l ih =>
    intro x
    exact (h b mem_cons_self x).bind
      (ih (fun b hb => h b (mem_cons_of_mem _ hb)) (next x b))

end WfOpt

import Mathlib

/-!
# Tournaments

The smallest of `2 * half` players is found by a tournament, whose games are the inner nodes of a heap: game `n` is
between the winners of `2 * n + 1` and `2 * n + 2`, and the players come after the last game. A *loser tree* keeps
the loser of every game, so that a new player plays against those on the way to the root only.
-/

namespace WfOpt

open Function

variable {α : Type*} [LinearOrder α]

/-- The outcome of the games. -/
structure Games (α : Type*) where
  losers : ℕ → α
  winners : ℕ → α

namespace Games

/-- Game `n`, between `x` and `y`. -/
def play (g : Games α) (n : ℕ) (x y : α) : Games α := if x < y then ⟨update g.losers n y, update g.winners n x⟩
  else ⟨update g.losers n x, update g.winners n y⟩

/-- The first `k` games of the first round, between neighbouring players. -/
def playBase (half : ℕ) (player : ℕ → α) (g : Games α) : ℕ → Games α
  | 0 => g
  | k + 1 => (playBase half player g k).play (half - 1 + k) (player (2 * k)) (player (2 * k + 1))

/-- The games between winners, from game `i - 1` backwards. -/
def playUp : ℕ → Games α → Games α
  | 0, g => g
  | i + 1, g => playUp i (g.play i (g.winners (2 * i + 1)) (g.winners (2 * i + 2)))

/-- All games. -/
def start (half : ℕ) (player : ℕ → α) (g : Games α) : Games α := playUp (half - 1) (playBase half player g half)

/-- The games above the node `idx` are played again, with the new winner `x` of that node. -/
def replay (losers : ℕ → α) (x : α) (idx : ℕ) : (ℕ → α) × α := let parent := (idx - 1) / 2
  let swapped := if losers parent < x then (update losers parent x, losers parent) else (losers, x)
  if parent = 0 then swapped else replay swapped.1 swapped.2 parent
  termination_by idx

/-- The winners `w` of all nodes, players included, and the losers are those of the tournament. -/
structure Played (half : ℕ) (player losers w : ℕ → α) : Prop where
  leaf : ∀ i < 2 * half, w (2 * half - 1 + i) = player i
  winner : ∀ n < 2 * half - 1, w n = min (w (2 * n + 1)) (w (2 * n + 2))
  loser : ∀ n < 2 * half - 1, losers n = max (w (2 * n + 1)) (w (2 * n + 2))

variable {half : ℕ} {player losers w : ℕ → α}

theorem play_winners (g : Games α) (n : ℕ) (x y : α) : (g.play n x y).winners = update g.winners n (min x y) := by
  rw [play]
  split_ifs with h
  · rw [min_eq_left h.le]
  · rw [min_eq_right (not_lt.1 h)]

theorem play_losers (g : Games α) (n : ℕ) (x y : α) : (g.play n x y).losers = update g.losers n (max x y) := by
  rw [play]
  split_ifs with h
  · rw [max_eq_right h.le]
  · rw [max_eq_left (not_lt.1 h)]

/-! ## The first tournament -/

theorem playBase_eq (half : ℕ) (player : ℕ → α) (g : Games α) {i k : ℕ} (hi : i < k) :
    (playBase half player g k).winners (half - 1 + i) = min (player (2 * i)) (player (2 * i + 1)) ∧
      (playBase half player g k).losers (half - 1 + i) = max (player (2 * i)) (player (2 * i + 1)) := by
  induction k with
  | zero => exact absurd hi (Nat.not_lt_zero i)
  | succ k ih =>
    rw [playBase, play_winners, play_losers]
    rcases Nat.lt_succ_iff_lt_or_eq.1 hi with h | rfl
    · have hne : half - 1 + i ≠ half - 1 + k := by omega
      rw [update_of_ne hne, update_of_ne hne]
      exact ih h
    · rw [update_self, update_self]
      exact ⟨rfl, rfl⟩

theorem playUp_of_le (g : Games α) {i n : ℕ} (hn : i ≤ n) :
    (playUp i g).winners n = g.winners n ∧ (playUp i g).losers n = g.losers n := by
  induction i generalizing g with
  | zero => exact ⟨rfl, rfl⟩
  | succ i ih =>
    rw [playUp]
    have hne : n ≠ i := by omega
    rw [(ih _ (by omega)).1, (ih _ (by omega)).2, play_winners, play_losers, update_of_ne hne, update_of_ne hne]
    exact ⟨rfl, rfl⟩

theorem playUp_of_lt (g : Games α) {i n : ℕ} (hn : n < i) : (playUp i g).winners n =
        min ((playUp i g).winners (2 * n + 1)) ((playUp i g).winners (2 * n + 2)) ∧
      (playUp i g).losers n = max ((playUp i g).winners (2 * n + 1)) ((playUp i g).winners (2 * n + 2)) := by
  induction i generalizing g with
  | zero => exact absurd hn (Nat.not_lt_zero n)
  | succ i ih =>
    rw [playUp]
    rcases Nat.lt_succ_iff_lt_or_eq.1 hn with h | rfl
    · exact ih _ h
    · -- The game just played is between nodes behind it, which are not played again.
      rw [(playUp_of_le _ le_rfl).1, (playUp_of_le _ le_rfl).2, (playUp_of_le _ (by omega)).1,
        (playUp_of_le _ (by omega)).1, play_winners, play_losers, update_self,
        update_self, update_of_ne (by omega), update_of_ne (by omega)]
      exact ⟨rfl, rfl⟩

/-- The winners of all nodes, the players being nodes too. -/
def nodeWinner (half : ℕ) (player winners : ℕ → α) (n : ℕ) : α :=
  if n < 2 * half - 1 then winners n else player (n - (2 * half - 1))

/-- A game of the first tournament is between the winners of the nodes below it. -/
theorem start_eq (player : ℕ → α) (g : Games α) {n : ℕ} (hn : n < 2 * half - 1) :
    let w := nodeWinner half player (start half player g).winners
    (start half player g).winners n = min (w (2 * n + 1)) (w (2 * n + 2)) ∧
      (start half player g).losers n = max (w (2 * n + 1)) (w (2 * n + 2)) := by
  simp only [nodeWinner, start]
  rcases Nat.lt_or_ge n (half - 1) with h | h
  · rw [if_pos (by omega), if_pos (by omega)]
    exact playUp_of_lt _ h
  · rw [if_neg (by omega), if_neg (by omega), (playUp_of_le _ h).1, (playUp_of_le _ h).2]
    have hbase := playBase_eq half player g (i := n - (half - 1)) (k := half) (by omega)
    rw [show half - 1 + (n - (half - 1)) = n by omega] at hbase
    rw [show 2 * n + 1 - (2 * half - 1) = 2 * (n - (half - 1)) by omega,
      show 2 * n + 2 - (2 * half - 1) = 2 * (n - (half - 1)) + 1 by omega]
    exact hbase

/-- The first tournament is played. -/
theorem played_start (player : ℕ → α) (g : Games α) : Played half player (start half player g).losers
      (nodeWinner half player (start half player g).winners) := by
  refine ⟨fun i _ => ?_, fun n hn => ?_, fun n hn => (start_eq player g hn).2⟩
  · rw [nodeWinner, if_neg (by omega), Nat.add_sub_cancel_left]
  · rw [nodeWinner, if_pos hn]
    exact (start_eq player g hn).1

/-! ## Replaying -/

/-- A node is the left or the right child of its parent. -/
theorem children_parent {n : ℕ} (hn : 0 < n) : 2 * ((n - 1) / 2) + 1 = n ∨ 2 * ((n - 1) / 2) + 2 = n := by
  omega

/-- No node has a winner that is below that of the root. -/
theorem Played.root_le (h : Played half player losers w) {n : ℕ} (hn : n < 4 * half - 1) : w 0 ≤ w n := by
  induction n using Nat.strong_induction_on with
  | _ n ih =>
    rcases Nat.eq_zero_or_pos n with rfl | hpos
    · exact le_rfl
    have hpar := h.winner ((n - 1) / 2) (by omega)
    have hle : w ((n - 1) / 2) ≤ w n := by
      rw [hpar]
      rcases children_parent hpos with hn' | hn'
      · rw [hn']
        exact min_le_left _ _
      · rw [hn']
        exact min_le_right _ _
    exact (ih _ (by omega) (by omega)).trans hle

/-- The winner is the smallest player. -/
theorem Played.root_le_player (h : Played half player losers w) {i : ℕ} (hi : i < 2 * half) : w 0 ≤ player i := by
  rw [← h.leaf i hi]
  exact h.root_le (by omega)

theorem Played.exists_root_eq (h : Played half player losers w) (hhalf : 0 < half) :
    ∃ i < 2 * half, w 0 = player i := by
  suffices hnode : ∀ k n, 4 * half - 1 - n ≤ k → n < 4 * half - 1 → ∃ i < 2 * half, w n = player i by
    exact hnode _ 0 le_rfl (by omega)
  intro k
  induction k with
  | zero =>
    omega
  | succ k ih =>
    intro n hk hn
    rcases Nat.lt_or_ge n (2 * half - 1) with hlt | hge
    · rw [h.winner n hlt]
      rcases min_choice (w (2 * n + 1)) (w (2 * n + 2)) with hmin | hmin
      iterate 2
        · rw [hmin]
          exact ih _ (by omega) (by omega)
    · refine ⟨n - (2 * half - 1), by omega, ?_⟩
      rw [← h.leaf _ (by omega), Nat.add_sub_cancel' hge]

/-- The games above `idx` are those of the tournament, but for its parent, where the old winner `y`, the smallest
    player, played in place of the new winner `x`. -/
structure Replaying (half : ℕ) (y : α) (player losers w : ℕ → α) (idx : ℕ) : Prop where
  leaf : ∀ i < 2 * half, w (2 * half - 1 + i) = player i
  winner : ∀ n < 2 * half - 1, n ≠ (idx - 1) / 2 → w n = min (w (2 * n + 1)) (w (2 * n + 2))
  loser : ∀ n < 2 * half - 1, n ≠ (idx - 1) / 2 → losers n = max (w (2 * n + 1)) (w (2 * n + 2))
  parent : w ((idx - 1) / 2) = y
  sibling : ∀ c, 0 < c → c ≠ idx → (c - 1) / 2 = (idx - 1) / 2 →
    y ≤ w c ∧ losers ((idx - 1) / 2) = w c
  above : ∀ n < idx, y ≤ w n

/-- The winner leaves its place to the player `x`. -/
theorem Played.replaying (h : Played half player losers w) {i : ℕ} (hi : i < 2 * half)
    (hroot : w 0 = player i) (x : α) :
    Replaying half (player i) (update player i x) losers
      (update w (2 * half - 1 + i) x) (2 * half - 1 + i) := by
  have hidx : 0 < 2 * half - 1 + i := by omega
  -- No node but the place of the winner changes.
  have hne : ∀ n < 2 * half - 1, n ≠ 2 * half - 1 + i := by
    omega
  have hpar : w ((2 * half - 1 + i - 1) / 2) = player i := by
    refine le_antisymm ?_ (hroot ▸ h.root_le (by omega))
    rw [← h.leaf i hi, h.winner _ (by omega)]
    rcases children_parent hidx with hc | hc
    · rw [hc]
      exact min_le_left _ _
    · rw [hc]
      exact min_le_right _ _
  refine ⟨fun j hj => ?_, fun n hn hp => ?_, fun n hn hp => ?_, ?_, fun c hc hci hcp => ?_, fun n hn => ?_⟩
  · rcases eq_or_ne j i with rfl | hji
    · rw [update_self, update_self]
    · rw [update_of_ne (by omega), update_of_ne hji, h.leaf j hj]
  · rw [update_of_ne (hne n hn), update_of_ne (by omega), update_of_ne (by omega)]
    exact h.winner n hn
  · rw [update_of_ne (by omega), update_of_ne (by omega)]
    exact h.loser n hn
  · rw [update_of_ne (hne _ (by omega)), hpar]
  · rw [update_of_ne hci]
    have hle : player i ≤ w c := hroot ▸ h.root_le (by omega)
    refine ⟨hle, ?_⟩
    rw [h.loser _ (by omega)]
    rcases children_parent hidx with hc' | hc'
    · rw [hc', show 2 * ((2 * half - 1 + i - 1) / 2) + 2 = c by omega, h.leaf i hi]
      exact max_eq_right hle
    · rw [hc', show 2 * ((2 * half - 1 + i - 1) / 2) + 1 = c by omega, h.leaf i hi]
      exact max_eq_left hle
  · rw [update_of_ne (by omega)]
    exact hroot ▸ h.root_le (by omega)

/-- A game is played again: then all games below that of the parent are right. -/
theorem Replaying.children {y : α} {idx : ℕ} (h : Replaying half y player losers w idx) (hidx : 0 < idx) :
    min (w (2 * ((idx - 1) / 2) + 1)) (w (2 * ((idx - 1) / 2) + 2)) = min (losers ((idx - 1) / 2)) (w idx) ∧
      max (w (2 * ((idx - 1) / 2) + 1)) (w (2 * ((idx - 1) / 2) + 2)) = max (losers ((idx - 1) / 2)) (w idx) := by
  rcases children_parent hidx with hc | hc
  · have hs := (h.sibling (idx + 1) (by omega) (by omega) (by omega)).2
    rw [hc, show 2 * ((idx - 1) / 2) + 2 = idx + 1 by omega, hs]
    exact ⟨min_comm _ _, max_comm _ _⟩
  · have hs := (h.sibling (idx - 1) (by omega) (by omega) (by omega)).2
    rw [hc, show 2 * ((idx - 1) / 2) + 1 = idx - 1 by omega, hs]
    exact ⟨rfl, rfl⟩

/-- The games that are right once that of the parent of `idx` has been played again: all but
    that of its own parent. -/
theorem Replaying.game {y : α} {idx n : ℕ} (h : Replaying half y player losers w idx)
    (hidx : 0 < idx) (hn : n < 2 * half - 1)
    (hnp : (idx - 1) / 2 = 0 ∨ n ≠ ((idx - 1) / 2 - 1) / 2) :
    let p := (idx - 1) / 2
    let w' := update w p (min (losers p) (w idx))
    w' n = min (w' (2 * n + 1)) (w' (2 * n + 2)) ∧ update losers p (max (losers p) (w idx)) n =
        max (w' (2 * n + 1)) (w' (2 * n + 2)) := by
  intro p w'
  have hw₁ : w' (2 * n + 1) = w (2 * n + 1) := update_of_ne (by omega) _ _
  have hw₂ : w' (2 * n + 2) = w (2 * n + 2) := update_of_ne (by omega) _ _
  rw [hw₁, hw₂]
  rcases eq_or_ne n p with rfl | hne
  · simp only [w', update_self]
    exact ⟨(h.children hidx).1.symm, (h.children hidx).2.symm⟩
  · simp only [w', update_of_ne hne]
    exact ⟨h.winner n hn hne, h.loser n hn hne⟩

/-- The game of the parent is played again, and it is not the last one. -/
theorem Replaying.step {y : α} {idx : ℕ} (h : Replaying half y player losers w idx)
    (hidx : 0 < idx) (hlt : idx < 4 * half - 1) (hp : (idx - 1) / 2 ≠ 0) :
    Replaying half y player
      (update losers ((idx - 1) / 2) (max (losers ((idx - 1) / 2)) (w idx)))
      (update w ((idx - 1) / 2) (min (losers ((idx - 1) / 2)) (w idx)))
      ((idx - 1) / 2) := by
  have hwin := h.winner (((idx - 1) / 2 - 1) / 2) (by omega) (by omega)
  -- The old winner has won the game above as well.
  have hpar : w (((idx - 1) / 2 - 1) / 2) = y := by
    refine le_antisymm ?_ (h.above _ (by omega))
    rw [hwin]
    rcases children_parent (Nat.pos_of_ne_zero hp) with hc | hc
    · rw [hc, h.parent]
      exact min_le_left _ _
    · rw [hc, h.parent]
      exact min_le_right _ _
  refine ⟨fun i hi => ?_, fun n hn hne => (h.game hidx hn (.inr hne)).1,
    fun n hn hne => (h.game hidx hn (.inr hne)).2, ?_, fun c hc hci hcp => ?_, fun n hn => ?_⟩
  · rw [update_of_ne (by omega), h.leaf i hi]
  · rw [update_of_ne (by omega), hpar]
  · have hloser := h.loser (((idx - 1) / 2 - 1) / 2) (by omega) (by omega)
    rw [update_of_ne hci, update_of_ne (by omega), hloser]
    rcases children_parent (Nat.pos_of_ne_zero hp) with hc' | hc'
    · have hcc : 2 * (((idx - 1) / 2 - 1) / 2) + 2 = c := by omega
      rw [hc', hcc, h.parent, hpar] at hwin
      rw [hc', hcc, h.parent]
      have hle : y ≤ w c := hwin ▸ min_le_right _ _
      exact ⟨hle, max_eq_right hle⟩
    · have hcc : 2 * (((idx - 1) / 2 - 1) / 2) + 1 = c := by omega
      rw [hc', hcc, h.parent, hpar] at hwin
      rw [hc', hcc, h.parent]
      have hle : y ≤ w c := hwin ▸ min_le_left _ _
      exact ⟨hle, max_eq_left hle⟩
  · rw [update_of_ne (by omega)]
    exact h.above n (by omega)

section

variable {y : α} {idx : ℕ} (h : Replaying half y player losers w idx) (hidx : 0 < idx)

include h hidx

/-- The game of the parent is played again, and it is the last one. -/
theorem Replaying.finish (hp : (idx - 1) / 2 = 0) :
    Played half player
      (update losers ((idx - 1) / 2) (max (losers ((idx - 1) / 2)) (w idx)))
      (update w ((idx - 1) / 2) (min (losers ((idx - 1) / 2)) (w idx))) := by
  refine ⟨fun i hi => ?_, fun n hn => (h.game hidx hn (.inl hp)).1, fun n hn => (h.game hidx hn (.inl hp)).2⟩
  rw [update_of_ne (by omega), h.leaf i hi]

theorem Replaying.played (hlt : idx < 4 * half - 1) :
    ∃ w', Played half player (replay losers (w idx) idx).1 w' ∧ (replay losers (w idx) idx).2 = w' 0 := by
  induction idx using Nat.strong_induction_on generalizing losers w with
  | _ idx ih =>
    -- A swap puts the larger one down, and goes on with the smaller one.
    have hswap : (if losers ((idx - 1) / 2) < w idx then
          (update losers ((idx - 1) / 2) (w idx), losers ((idx - 1) / 2))
        else (losers, w idx)) =
        (update losers ((idx - 1) / 2) (max (losers ((idx - 1) / 2)) (w idx)),
          min (losers ((idx - 1) / 2)) (w idx)) := by
      split_ifs with hcmp
      · rw [max_eq_right hcmp.le, min_eq_left hcmp.le]
      · rw [max_eq_left (not_lt.1 hcmp), min_eq_right (not_lt.1 hcmp), update_eq_self]
    rw [replay]
    simp only [hswap]
    by_cases hp : (idx - 1) / 2 = 0
    · rw [if_pos hp]
      refine ⟨_, h.finish hidx hp, ?_⟩
      rw [hp, update_self]
    · rw [if_neg hp]
      have := ih ((idx - 1) / 2) (by omega) (h.step hidx hlt hp) (Nat.pos_of_ne_zero hp) (by omega)
      rwa [update_self] at this

end

/-- The winner is replaced by another player, and the games above its place are played
    again. -/
theorem Played.replay (h : Played half player losers w) {i : ℕ} (hi : i < 2 * half)
    (hroot : w 0 = player i) (x : α) :
    ∃ w', Played half (update player i x) (replay losers x (2 * half - 1 + i)).1 w' ∧
      (Games.replay losers x (2 * half - 1 + i)).2 = w' 0 := by
  have := (h.replaying hi hroot x).played (by omega) (by omega)
  rwa [update_self] at this

end Games

end WfOpt

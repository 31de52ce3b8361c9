/-
# The choices of the programs

`randr` of `hw3/utils.c` picks the player that gets the potato first, and the neighbour
it goes to. It divides what `rand` gives by `RAND_MAX / n + 1`, where `n` is how many
numbers there are to choose from, so that the quotient is below `n` (`div_step_lt`). The
largest quotients are missing if `n` is large; while `n * (n - 1)` is at most `RAND_MAX`,
all of them occur (`mul_step_le`).

`RAND_MAX` and `rand` are the C library's and are arguments here: `rand s` is the number
that `rand` returns after `srand(s)`. A result `none` is a division by zero.

Key definitions: `pick`, `randr`.
Key theorems: `pick_eq`, `randr_range`, `potato_sent`.
-/
import Csc501.Lib.CMem
import Csc501.Potato.Safety

namespace Csc501
namespace Potato

open Lib

/-- What `randr` returns when `rand` gives `r`. All of it is `unsigned`. -/
def pick (randMax min max r : ℕ) : Option ℕ :=
  let n := toUnsigned ((max : ℤ) - min + 1)
  if n = 0 then none
  else
    let step := toUnsigned (randMax / n + 1 : ℕ)
    if step = 0 then none else some (toUnsigned (min + r / step : ℕ))

/-- `randr`: the clock is the seed if `seed` is -1. -/
def randr (randMax : ℕ) (rand : ℕ → ℕ) (time : ℤ) (min max : ℕ) (seed : ℤ) : Option ℕ :=
  if seed = -1 then pick randMax min max (rand (toUnsigned time))
  else pick randMax min max (rand (toUnsigned seed))

/-! ### The quotients -/

section Quotients

variable {R n r : ℕ}

/-- What is divided is below `n` steps. -/
theorem div_step_lt (hn : 0 < n) (hr : r ≤ R) : r / (R / n + 1) < n := by
  apply Nat.div_lt_of_lt_mul
  calc r ≤ R := hr
    _ < n * (R / n + 1) := Nat.lt_mul_div_succ R hn
    _ = (R / n + 1) * n := Nat.mul_comm _ _

/-- If `n` is small, `n - 1` steps are not too many. -/
theorem mul_step_le {k : ℕ} (hn : n * (n - 1) ≤ R) (hk : k < n) : k * (R / n + 1) ≤ R := by
  have hpos : 0 < n := Nat.zero_lt_of_lt hk
  have hstep : n - 1 ≤ R / n := by
    rw [Nat.le_div_iff_mul_le hpos, Nat.mul_comm]
    exact hn
  calc k * (R / n + 1) = k * (R / n) + k := Nat.mul_succ _ _
    _ ≤ k * (R / n) + R / n := Nat.add_le_add_left ((Nat.le_sub_one_of_lt hk).trans hstep) _
    _ = (k + 1) * (R / n) := (Nat.succ_mul _ _).symm
    _ ≤ n * (R / n) := Nat.mul_le_mul_right _ hk
    _ ≤ R := Nat.mul_div_le R n

end Quotients

/-! ### The range -/

section Range

variable {randMax min max : ℕ}

/-- Nothing wraps around, if the range is not that of all numbers. -/
theorem pick_eq (hR : randMax < 2 ^ 31) (hle : min ≤ max) (hmax : max < 2 ^ 32)
    (hn : toUnsigned ((max : ℤ) - min + 1) ≠ 0) {r : ℕ} (hr : r ≤ randMax) :
    pick randMax min max r = some (min + r / (randMax / (max - min + 1) + 1)) := by
  have hcount : toUnsigned ((max : ℤ) - min + 1) = max - min + 1 := by
    unfold toUnsigned at hn ⊢
    omega
  have hstep : toUnsigned (randMax / (max - min + 1) + 1 : ℕ) = randMax / (max - min + 1) + 1 := by
    have hdiv : randMax / (max - min + 1) ≤ randMax := Nat.div_le_self _ _
    apply toUnsigned_natCast
    omega
  have hsum : toUnsigned (min + r / (randMax / (max - min + 1) + 1) : ℕ) =
      min + r / (randMax / (max - min + 1) + 1) := by
    have hlt : r / (randMax / (max - min + 1) + 1) < max - min + 1 := div_step_lt (Nat.succ_pos _) hr
    apply toUnsigned_natCast
    omega
  unfold pick
  simp only [hcount, hstep, hsum, Nat.add_eq_zero_iff, one_ne_zero, and_false, if_false]

theorem pick_range (hR : randMax < 2 ^ 31) (hle : min ≤ max) (hmax : max < 2 ^ 32)
    (hn : toUnsigned ((max : ℤ) - min + 1) ≠ 0) {r : ℕ} (hr : r ≤ randMax) :
    ∃ v, pick randMax min max r = some v ∧ min ≤ v ∧ v ≤ max := by
  have hlt : r / (randMax / (max - min + 1) + 1) < max - min + 1 := div_step_lt (Nat.succ_pos _) hr
  refine ⟨_, pick_eq hR hle hmax hn hr, Nat.le_add_right _ _, ?_⟩
  calc min + r / (randMax / (max - min + 1) + 1) ≤ min + (max - min) := Nat.add_le_add_left (Nat.le_of_lt_succ hlt) min
    _ = max := Nat.add_sub_cancel' hle

/-- What holds for every number from `rand` holds for every seed. -/
theorem randr_of_pick {rand : ℕ → ℕ} (time seed : ℤ) (hrand : ∀ s, rand s ≤ randMax)
    (h : ∀ r, r ≤ randMax → ∃ v, pick randMax min max r = some v ∧ min ≤ v ∧ v ≤ max) :
    ∃ v, randr randMax rand time min max seed = some v ∧ min ≤ v ∧ v ≤ max := by
  unfold randr
  split_ifs
  · exact h _ (hrand _)
  · exact h _ (hrand _)

/-- A player is chosen. -/
theorem randr_player (hR : randMax < 2 ^ 31) {rand : ℕ → ℕ} (time seed : ℤ) (hrand : ∀ s, rand s ≤ randMax)
    (c : Config) : ∃ v, randr randMax rand time 0 (c.numPlayers - 1) seed = some v ∧ v < c.numPlayers := by
  have hpos := c.players_pos
  have hlim : c.numPlayers ≤ 1000 := c.players_le
  have hcount : toUnsigned (((c.numPlayers - 1 : ℕ) : ℤ) - (0 : ℕ) + 1) ≠ 0 := by
    unfold toUnsigned
    omega
  obtain ⟨v, hv, -, hle⟩ := randr_of_pick time seed hrand fun r hr =>
    pick_range hR (Nat.zero_le (c.numPlayers - 1)) (by omega) hcount hr
  exact ⟨v, hv, by omega⟩

/-- **`randr` stays in its range and reaches all of it.** What it returns is one of the
numbers from `min` to `max`, for every number that `rand` may give and so for every seed;
a larger number from `rand` never gives a smaller one; and if there are few enough numbers
to choose from, each of them is returned for some number from `rand`. So the player that
is chosen from all players is one of them. -/
theorem randr_range (hR : randMax < 2 ^ 31) (hle : min ≤ max) (hmax : max < 2 ^ 32)
    (hn : toUnsigned ((max : ℤ) - min + 1) ≠ 0) :
    (∀ r, r ≤ randMax → ∃ v, pick randMax min max r = some v ∧ min ≤ v ∧ v ≤ max) ∧
    (∀ r r' v v', r ≤ r' → r' ≤ randMax → pick randMax min max r = some v → pick randMax min max r' = some v' →
      v ≤ v') ∧
    ((max - min + 1) * (max - min) ≤ randMax → ∀ v, min ≤ v → v ≤ max →
      ∃ r, r ≤ randMax ∧ pick randMax min max r = some v) ∧
    ∀ (rand : ℕ → ℕ) (time seed : ℤ), (∀ s, rand s ≤ randMax) →
      (∃ v, randr randMax rand time min max seed = some v ∧ min ≤ v ∧ v ≤ max) ∧
      ∀ c : Config, ∃ v, randr randMax rand time 0 (c.numPlayers - 1) seed = some v ∧ v < c.numPlayers := by
  refine ⟨fun r hr => pick_range hR hle hmax hn hr, ?_, ?_, fun rand time seed hrand => ⟨?_, fun c => ?_⟩⟩
  · intro r r' v v' hrr hr' hv hv'
    rw [pick_eq hR hle hmax hn (hrr.trans hr')] at hv
    rw [pick_eq hR hle hmax hn hr'] at hv'
    obtain rfl := Option.some.inj hv
    obtain rfl := Option.some.inj hv'
    exact Nat.add_le_add_left (Nat.div_le_div_right hrr) min
  · intro hsmall v hlo hhi
    -- as many steps as `v` is above `min`
    have hk : (v - min) * (randMax / (max - min + 1) + 1) ≤ randMax := by
      apply mul_step_le
      · rwa [Nat.add_sub_cancel]
      · omega
    refine ⟨_, hk, ?_⟩
    rw [pick_eq hR hle hmax hn hk, Nat.mul_div_cancel _ (Nat.succ_pos _), Nat.add_sub_cancel' hlo]
  · exact randr_of_pick time seed hrand fun r hr => pick_range hR hle hmax hn hr
  · exact randr_player hR time seed hrand c

end Range

/-- The faces of a die, with the smallest `RAND_MAX` there is. -/
theorem randr_range_die :
    (∀ r, r ≤ 32767 → ∃ v, pick 32767 1 6 r = some v ∧ 1 ≤ v ∧ v ≤ 6) ∧
      ∀ v, 1 ≤ v → v ≤ 6 → ∃ r, r ≤ 32767 ∧ pick 32767 1 6 r = some v := by
  have h := randr_range (show 32767 < 2 ^ 31 by decide) (show 1 ≤ 6 by decide) (by decide) (by decide)
  exact ⟨h.1, h.2.2.1 (by decide)⟩

/-- **The potato is sent**: when the master comes to it, every player is there, and the one
that `randr` chooses gets it. -/
theorem potato_sent (T : Table) (hh : 0 < T.hops) {tr : List (Trans Game Event)} {g : Game}
    (hr : (game T).Run Game.start tr g) (hpc : g.master.pc = .sendPotato) {randMax : ℕ} (hR : randMax < 2 ^ 31)
    {rand : ℕ → ℕ} (hrand : ∀ s, rand s ≤ randMax) (time : ℤ) :
    ∃ v a g', randr randMax rand time 0 (T.numPlayers - 1) 42 = some v ∧ g.master.players v = some a ∧
      (game T).step g ⟨.master, v, none, some (a, potatoText T.hops)⟩ g' := by
  obtain ⟨⟨γ, hinv⟩, -⟩ := inv_game T hh hr
  have hfilled : g.master.playersConnected = T.numPlayers := by
    apply hinv.roster.filled
    rw [hpc]
    simp
  obtain ⟨v, hv, hlt⟩ := randr_player hR time 42 hrand T.toConfig
  have ha : g.master.players v = some (γ.ring v) := hinv.roster.players v (hfilled ▸ hlt)
  have hwaits : ¬ g.master.Waits := by simp [Master.Waits, hpc]
  refine ⟨v, γ.ring v, Game.deliver { g with master := { g.master with pc := .awaitRoute } } T.masterInfo.host
    (γ.ring v) (potatoText T.hops), hv, ha, ?_⟩
  show exec T g .master v = _
  simp only [exec, masterStep, if_neg hwaits, sendNext, hpc, ha, guard, if_pos hlt]
  rfl

end Potato
end Csc501

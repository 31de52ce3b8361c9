/-
# Runs that come to an end

A number of steps left: each step uses up one of them, and as long as some are
left a step is possible. Then every run from a state has the same number of
steps before it, none can go on forever, and where one stops everything is
done. Such a number is often a sum over the parties, of which a step changes
one or two summands (`sum_map_set`).

Key definitions: `Lts.Countdown`, `Lts.Stuck`.
Key theorems: `Lts.Countdown.length`, `Lts.Countdown.stuck_iff`, `Lts.Countdown.finish`, `sum_map_set`.
-/
import Csc501.Lib.Run
import Mathlib.Algebra.Ring.Nat

namespace Csc501
namespace Lib

/-- One summand changes. -/
theorem sum_map_set {α : Type*} [DecidableEq α] {l : List α} {f f' : α → ℕ} {a : α} (hnd : l.Nodup) (ha : a ∈ l)
    (h : ∀ b ∈ l, b ≠ a → f' b = f b) : (l.map f').sum + f a = (l.map f).sum + f' a := by
  have hrest : (l.erase a).map f' = (l.erase a).map f := by
    apply List.map_congr_left
    intro b hb
    obtain ⟨hne, hmem⟩ := hnd.mem_erase_iff.mp hb
    exact h b hmem hne
  have hsum : ∀ g : α → ℕ, (l.map g).sum = g a + ((l.erase a).map g).sum := by
    intro g
    simpa using ((List.perm_cons_erase ha).map g).sum_nat
  rw [hsum f', hsum f, hrest]
  omega

namespace Lts

variable {S A : Type*} {M : Lts S A}

/-- No step is possible. -/
def Stuck (M : Lts S A) (s : S) : Prop := ∀ a s', ¬ M.step s a s'

/-- In the states of `I` the number `left` counts the steps to come. -/
structure Countdown (M : Lts S A) (I : S → Prop) (left : S → ℕ) : Prop where
  keeps : ∀ {s a s'}, I s → M.step s a s' → I s'
  counts : ∀ {s a s'}, I s → M.step s a s' → left s' + 1 = left s
  goes : ∀ {s}, I s → 0 < left s → ∃ a s', M.step s a s'

namespace Countdown

variable {I : S → Prop} {left : S → ℕ} (h : M.Countdown I left)

include h

/-- A run has taken the steps that are not left. -/
theorem length {s t : S} {tr : List (Trans S A)} (hs : I s) (hr : M.Run s tr t) :
    I t ∧ tr.length + left t = left s := by
  induction hr with
  | nil => exact ⟨hs, Nat.zero_add _⟩
  | snoc _ hst ih =>
    obtain ⟨ht, hlen⟩ := ih
    refine ⟨h.keeps ht hst, ?_⟩
    rw [List.length_append, List.length_singleton, Nat.add_assoc, Nat.add_comm 1, h.counts ht hst, hlen]

theorem stuck_iff {s : S} (hs : I s) : M.Stuck s ↔ left s = 0 := by
  constructor
  · intro hstuck
    by_contra hne
    obtain ⟨a, s', hst⟩ := h.goes hs (Nat.pos_of_ne_zero hne)
    exact hstuck a s' hst
  · intro hzero a s' hst
    have := h.counts hs hst
    omega

/-- Every state has a run to the end, of as many steps as are left. -/
theorem finish {s : S} (hs : I s) : ∃ tr t, M.Run s tr t ∧ tr.length = left s ∧ M.Stuck t := by
  generalize hn : left s = n
  induction n generalizing s with
  | zero => exact ⟨[], s, .nil s, rfl, (h.stuck_iff hs).mpr hn⟩
  | succ n ih =>
    obtain ⟨a, s', hst⟩ := h.goes hs (by omega)
    have hleft := h.counts hs hst
    obtain ⟨tr, t, hr, hlen, hstuck⟩ := ih (h.keeps hs hst) (by omega)
    refine ⟨[⟨s, a, s'⟩] ++ tr, t, (Run.single hst).trans hr, ?_, hstuck⟩
    rw [List.length_append, List.length_singleton, hlen, Nat.add_comm]

end Countdown

end Lts
end Lib
end Csc501

/-
# Functions that are run with fuel

A loop that may not end is a function of the number of its steps, with `none` for
the result that is not reached. `Kept` relates two such results: what the first
one gives, the second gives too. It goes through `bind` and `map`, so more fuel
keeps the result of a function as soon as it does so for those it calls, and then
the result does not depend on how much there is of it.

Key definition: `Kept`.
Key theorems: `Kept.bind`, `Kept.map`, `kept_le`.
-/
import Mathlib.Order.Basic

namespace Csc501
namespace Lib

variable {α β : Type*}

/-- What is reached in `x` is reached in `y`. -/
def Kept (x y : Option α) : Prop := ∀ r, x = some r → y = some r

namespace Kept

variable {x y z : Option α}

theorem refl (x : Option α) : Kept x x := fun _ h => h

theorem none (x : Option α) : Kept Option.none x := nofun

theorem trans (h : Kept x y) (h' : Kept y z) : Kept x z := fun r hr => h' r (h r hr)

theorem bind {f g : α → Option β} (h : Kept x y) (hf : ∀ a, Kept (f a) (g a)) : Kept (x.bind f) (y.bind g) := by
  intro r hr
  obtain ⟨a, ha, hr⟩ := Option.bind_eq_some_iff.mp hr
  exact Option.bind_eq_some_iff.mpr ⟨a, h a ha, hf a r hr⟩

theorem map (h : Kept x y) (f : α → β) : Kept (x.map f) (y.map f) := by
  intro r hr
  obtain ⟨a, ha, rfl⟩ := Option.map_eq_some_iff.mp hr
  exact Option.map_eq_some_iff.mpr ⟨a, h a ha, rfl⟩

theorem ite {p : Prop} [Decidable p] {x' y' : Option α} (h : Kept x y) (h' : Kept x' y') :
    Kept (if p then x else x') (if p then y else y') := by
  split_ifs
  · exact h
  · exact h'

end Kept

/-- One step more is enough. -/
theorem kept_le {f : ℕ → Option α} (h : ∀ n, Kept (f n) (f (n + 1))) {m n : ℕ} (hle : m ≤ n) : Kept (f m) (f n) := by
  induction hle with
  | refl => exact .refl _
  | step _ ih => exact ih.trans (h _)

end Lib
end Csc501

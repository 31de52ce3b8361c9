/-
# One program follows another

A program at a low level against the one it implements. A single call may fail at both
levels, return related results at both, or give up at the low level for want of fuel
(`Follows`); calls made one after the other follow each other if each of them does. Step by
step, a system that simulates another has no run the other does not have (`Simulates.run`).

Key definitions: `Follows`, `Lts.Simulates`.
Key theorems: `Follows.bind`, `Lts.Simulates.run`.
-/
import Csc501.Lib.Run

namespace Csc501
namespace Lib

/-- `x` does what `y` does, or gives up; if `ok` it does not give up. -/
inductive Follows {α β : Type*} (ok : Prop) (R : α → β → Prop) : Option α → Option β → Prop
  | both {a : α} {b : β} : R a b → Follows ok R (some a) (some b)
  | neither : Follows ok R none none
  | gaveUp {y : Option β} : ¬ ok → Follows ok R none y

namespace Follows

universe u

variable {α α' β β' : Type u} {ok ok' : Prop} {R : α → β → Prop} {Q : α' → β' → Prop} {x : Option α} {y : Option β}

theorem mono (h : Follows ok R x y) (hok : ok' → ok) : Follows ok' R x y := by
  cases h with
  | both hab => exact .both hab
  | neither => exact .neither
  | gaveUp hn => exact .gaveUp fun h => hn (hok h)

theorem imp {Q : α → β → Prop} (h : Follows ok R x y) (hQ : ∀ a b, R a b → Q a b) : Follows ok Q x y := by
  cases h with
  | both hab => exact .both (hQ _ _ hab)
  | neither => exact .neither
  | gaveUp hn => exact .gaveUp hn

/-- One call after another. -/
theorem bind {f : α → Option α'} {g : β → Option β'} (h : Follows ok R x y)
    (hk : ∀ a b, R a b → x = some a → y = some b → Follows ok Q (f a) (g b)) :
    Follows ok Q (x >>= f) (y >>= g) := by
  cases h with
  | both hab => exact hk _ _ hab rfl rfl
  | neither => exact .neither
  | gaveUp hn => exact .gaveUp hn

/-- What is done with the results. -/
theorem map {f : α → α'} {g : β → β'} (h : Follows ok R x y)
    (hQ : ∀ a b, R a b → y = some b → Q (f a) (g b)) : Follows ok Q (x.map f) (y.map g) := by
  cases h with
  | both hab => exact .both (hQ _ _ hab rfl)
  | neither => exact .neither
  | gaveUp hn => exact .gaveUp hn

/-- The same call at both levels. -/
theorem bind_eq {x : Option α} {f : α → Option α'} {g : α → Option β'}
    (hk : ∀ a, x = some a → Follows ok Q (f a) (g a)) : Follows ok Q (x >>= f) (x >>= g) := by
  cases x with
  | none => exact .neither
  | some a => exact hk a rfl

/-- A call that at the other level is none, and has the result `b`. -/
theorem bind_some {b : β} {f : α → Option α'} {y : Option β'} (h : Follows ok R x (some b))
    (hk : ∀ a, R a b → Follows ok Q (f a) y) : Follows ok Q (x >>= f) y := by
  cases h with
  | both hab => exact hk _ hab
  | gaveUp hn => exact .gaveUp hn

theorem ite {c : Prop} [Decidable c] {x' : Option α} {y' : Option β} (h : c → Follows ok R x y)
    (h' : ¬ c → Follows ok R x' y') : Follows ok R (if c then x else x') (if c then y else y') := by
  by_cases hc : c
  · rw [if_pos hc, if_pos hc]
    exact h hc
  · rw [if_neg hc, if_neg hc]
    exact h' hc

/-- What is returned is returned at the other level too. -/
theorem returned {a : α} (h : Follows ok R (some a) y) : ∃ b, y = Option.some b ∧ R a b := by
  cases h with
  | both hab => exact ⟨_, rfl, hab⟩

/-- What is returned at the other level is returned, with fuel enough. -/
theorem returns {b : β} (h : Follows ok R x (some b)) (hok : ok) : ∃ a, x = Option.some a ∧ R a b := by
  cases h with
  | both hab => exact ⟨_, rfl, hab⟩
  | gaveUp hn => exact absurd hok hn

/-- With fuel enough both fail or both return. -/
theorem rel (h : Follows ok R x y) (hok : ok) : Option.Rel R x y := by
  cases h with
  | both hab => exact .some hab
  | neither => exact .none
  | gaveUp hn => exact absurd hok hn

end Follows

namespace Lts

variable {S T A : Type*} {M : Lts S A} {N : Lts T A} {R : S → T → Prop}

/-- Each step of `M` can be taken by `N`, from related states to related states. -/
def Simulates (M : Lts S A) (N : Lts T A) (R : S → T → Prop) : Prop :=
  ∀ s t a s', R s t → M.step s a s' → ∃ t', N.step t a t' ∧ R s' t'

/-- **A run of `M` is one of `N`**, with the same labels. -/
theorem Simulates.run (h : M.Simulates N R) {s₀ s : S} {t₀ : T} {tr : List (Trans S A)} (h0 : R s₀ t₀)
    (hr : M.Run s₀ tr s) : ∃ tr' t, N.Run t₀ tr' t ∧ labels tr' = labels tr ∧ R s t := by
  induction hr with
  | nil => exact ⟨[], t₀, .nil t₀, rfl, h0⟩
  | snoc _ hst ih =>
    obtain ⟨tr', t, hrun, hlab, hR⟩ := ih
    obtain ⟨t', hst', hR'⟩ := h _ _ _ _ hR hst
    exact ⟨_, t', hrun.snoc hst', by simp [hlab], hR'⟩

end Lts

end Lib
end Csc501

/-
# Integers and memory the way C handles them

What a value becomes in a variable of type `int` or `size_t`, what `strncpy`
leaves in a buffer, and what a loop of assignments does to one. `strncpy` stops
copying at the first NUL and pads with NULs, so of bytes it copies a prefix
right exactly when no byte other than a NUL follows a NUL in it
(`take_strncpy_iff`).

Key definitions: `toInt`, `toUnsigned`, `toSize`, `strncpy`, `storeAt`, `ZeroTail`.
Key theorems: `toInt_eq_self`, `toUnsigned_natCast`, `toSize_eq_self`, `take_strncpy_iff`.
-/
import Mathlib.Data.Int.Basic
import Mathlib.Data.List.TakeWhile
import Mathlib.Tactic.Ring

namespace Csc501
namespace Lib

/-! ### Integers -/

/-- The value of an `int` of 32 bits after an assignment. -/
def toInt (z : ℤ) : ℤ := z.bmod (2 ^ 32)

/-- The value of an `unsigned int` of 32 bits after an assignment. -/
def toUnsigned (z : ℤ) : ℕ := (z % 2 ^ 32).toNat

/-- The value of a `size_t` of 64 bits after an assignment. -/
def toSize (z : ℤ) : ℕ := (z % 2 ^ 64).toNat

theorem toInt_eq_self {z : ℤ} (h1 : -2 ^ 31 ≤ z) (h2 : z < 2 ^ 31) : toInt z = z := by
  refine Int.bmod_eq_of_le ?_ ?_
  · norm_num
    exact h1
  · norm_num
    exact h2

theorem toUnsigned_natCast {n : ℕ} (h : n < 2 ^ 32) : toUnsigned n = n := by
  unfold toUnsigned
  omega

theorem toSize_eq_self {z : ℤ} (h1 : 0 ≤ z) (h2 : z < 2 ^ 64) : (toSize z : ℤ) = z := by
  rw [toSize, Int.emod_eq_of_lt h1 h2, Int.toNat_of_nonneg h1]

/-- A negative number is a large size. -/
theorem toSize_of_neg {z : ℤ} (h1 : z < 0) (h2 : -2 ^ 63 ≤ z) : (toSize z : ℤ) = z + 2 ^ 64 := by
  have h : z % 2 ^ 64 = z + 2 ^ 64 := by omega
  rw [toSize, h, Int.toNat_of_nonneg (by omega)]

/-! ### Memory -/

/-- The `n` bytes `strncpy` writes. -/
def strncpy (src : List UInt8) (n : ℕ) : List UInt8 :=
  let s := (src.take n).takeWhile (· ≠ 0)
  s ++ List.replicate (n - s.length) 0

/-- The buffer `dst` after `src` is stored from index `k` on, if it fits. -/
def storeAt (dst : List UInt8) (k : ℕ) (src : List UInt8) : Option (List UInt8) :=
  if k + src.length ≤ dst.length then some (dst.take k ++ src ++ dst.drop (k + src.length)) else none

/-- Behind its first zero there are only zeros. -/
def ZeroTail (bs : List UInt8) : Prop := ∀ b ∈ bs.dropWhile (· ≠ 0), b = 0

instance (bs : List UInt8) : Decidable (ZeroTail bs) := List.decidableBAll _ _

theorem storeAt_of_le {dst src : List UInt8} {k : ℕ} (h : k + src.length ≤ dst.length) :
    storeAt dst k src = some (dst.take k ++ src ++ dst.drop (k + src.length)) := if_pos h

@[simp] theorem length_strncpy (src : List UInt8) (n : ℕ) : (strncpy src n).length = n := by
  have h : ((src.take n).takeWhile (· ≠ 0)).length ≤ n :=
    (List.takeWhile_sublist _).length_le.trans (by simp)
  simp only [strncpy, List.length_append, List.length_replicate]
  omega

theorem strncpy_zero_cons (src : List UInt8) (n : ℕ) : strncpy (0 :: src) (n + 1) = List.replicate (n + 1) 0 := by
  simp [strncpy]

theorem strncpy_cons {b : UInt8} (hb : b ≠ 0) (src : List UInt8) (n : ℕ) :
    strncpy (b :: src) (n + 1) = b :: strncpy src n := by
  simp [strncpy, hb]

/-- What `strncpy` copies right. -/
theorem take_strncpy_iff : ∀ {src : List UInt8} {k : ℕ}, k ≤ src.length →
    ((strncpy src src.length).take k = src.take k ↔ ZeroTail (src.take k))
  | [], k, h => by
    obtain rfl : k = 0 := by simpa using h
    simp [ZeroTail]
  | b :: src, 0, _ => by simp [ZeroTail]
  | b :: src, k + 1, h => by
    have hk : k ≤ src.length := by simpa using h
    by_cases hb : b = 0
    · subst hb
      rw [List.length_cons, strncpy_zero_cons, List.take_replicate, Nat.min_eq_left (by omega)]
      rw [List.take_succ_cons, List.replicate_succ, ZeroTail, List.dropWhile_cons_of_neg (by simp)]
      simp only [List.cons.injEq, true_and, List.forall_mem_cons]
      constructor
      · intro heq x hx
        rw [← heq] at hx
        exact List.eq_of_mem_replicate hx
      · intro hz
        refine (List.eq_replicate_iff.mpr ⟨?_, hz⟩).symm
        rw [List.length_take, Nat.min_eq_left hk]
    · rw [List.length_cons, strncpy_cons hb, List.take_succ_cons, List.take_succ_cons, ZeroTail,
        List.dropWhile_cons_of_pos (by simpa using hb)]
      simp only [List.cons.injEq, true_and]
      exact take_strncpy_iff hk

end Lib
end Csc501

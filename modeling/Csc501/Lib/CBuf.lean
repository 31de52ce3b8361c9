/-
# Arrays of characters

A `char` array with the bytes that were never stored marked as such. `memcpy`
into it fails outside of the array, at negative indices too, and the string at an
index is there only if it ends in the array and all of it was stored. An array that
`calloc` makes is all NULs, so what `strncpy` copies into it is ended by the bytes it
leaves alone (`CBuf.strncpy_calloc`).

Key definitions: `CBuf`, `CBuf.memcpy`, `CBuf.load`, `CBuf.store`, `CBuf.stringAt`, `CBuf.calloc`, `CBuf.strncpy`.
Key theorems: `CBuf.memcpy_middle`, `CBuf.load_middle`, `CBuf.store_middle`, `CBuf.stringAt_append`,
`CBuf.strncpy_calloc`.
-/
import Csc501.Lib.CText

namespace Csc501
namespace Lib

/-- The bytes of an array, `none` if not stored yet. -/
abbrev CBuf := List (Option Char)

namespace CBuf

/-- `memcpy` to index `k`; `none` if a byte is stored outside of the array. -/
def memcpy (b : CBuf) (k : ℤ) (src : Text) : Option CBuf :=
  if 0 ≤ k ∧ k + src.length ≤ b.length then
    some (b.take k.toNat ++ (src.map some ++ b.drop (k.toNat + src.length)))
  else none

/-- The byte at index `k`; `none` outside of the array and if it was never stored. -/
def load (b : CBuf) (k : ℤ) : Option Char := if 0 ≤ k then (b[k.toNat]?).join else none

/-- A byte is stored at index `k`. -/
def store (b : CBuf) (k : ℤ) (c : Char) : Option CBuf := memcpy b k [c]

/-- The string that begins an array. -/
def string : CBuf → Option Text
  | some c :: b => if c = '\x00' then some [] else (string b).map (c :: ·)
  | _ => none

/-- The string at index `k`. -/
def stringAt (b : CBuf) (k : ℤ) : Option Text := if 0 ≤ k then string (b.drop k.toNat) else none

/-- Bytes are stored over as many. -/
theorem memcpy_middle (pre old post : CBuf) {src : Text} (h : old.length = src.length) :
    memcpy (pre ++ (old ++ post)) pre.length src = some (pre ++ (src.map some ++ post)) := by
  have hfit : (0 : ℤ) ≤ pre.length ∧ (pre.length : ℤ) + src.length ≤ (pre ++ (old ++ post)).length := by
    rw [List.length_append, List.length_append]
    omega
  rw [memcpy, if_pos hfit, Int.toNat_natCast, List.take_left, ← h, ← List.append_assoc, ← List.length_append,
    ← List.append_assoc pre old post, List.drop_left, List.append_assoc]

theorem store_middle (pre : CBuf) (x : Option Char) (post : CBuf) (c : Char) :
    store (pre ++ x :: post) pre.length c = some (pre ++ some c :: post) :=
  memcpy_middle pre [x] post rfl

theorem length_store {b b' : CBuf} {k : ℤ} {c : Char} (h : store b k c = some b') : b'.length = b.length := by
  unfold store memcpy at h
  split_ifs at h with hk
  obtain rfl := Option.some.inj h
  rw [List.length_singleton] at hk
  simp only [List.length_append, List.length_take, List.length_drop, List.length_map, List.length_singleton]
  omega

theorem load_middle (pre : CBuf) (c : Char) (post : CBuf) : load (pre ++ some c :: post) pre.length = some c := by
  rw [load, if_pos (Int.natCast_nonneg _), Int.toNat_natCast, List.getElem?_append_right le_rfl, Nat.sub_self]
  rfl

theorem string_append {s : Text} (h : '\x00' ∉ s) (b : CBuf) : string (s.map some ++ some '\x00' :: b) = some s := by
  induction s with
  | nil => rfl
  | cons c s ih =>
    rw [List.mem_cons, not_or] at h
    rw [List.map_cons, List.cons_append, string, if_neg (Ne.symm h.1), ih h.2]
    rfl

/-- The NUL is in the array too. -/
theorem length_string_lt {b : CBuf} {s : Text} (h : string b = some s) : s.length < b.length := by
  induction b generalizing s with
  | nil => simp [string] at h
  | cons x b ih =>
    cases x with
    | none => simp [string] at h
    | some c =>
      rw [string] at h
      split_ifs at h with hc
      · obtain rfl := Option.some.inj h
        exact Nat.succ_pos _
      · obtain ⟨s', hs', rfl⟩ := Option.map_eq_some_iff.mp h
        exact Nat.succ_lt_succ (ih hs')

theorem stringAt_append {s : Text} (h : '\x00' ∉ s) (pre b : CBuf) :
    stringAt (pre ++ (s.map some ++ some '\x00' :: b)) pre.length = some s := by
  rw [stringAt, if_pos (by omega), Int.toNat_natCast, List.drop_left]
  exact string_append h b

/-! ### Zeroed arrays -/

/-- `calloc` of `n` bytes; a negative number is a size there is no room for. -/
def calloc (n : ℤ) : Option CBuf := if 0 ≤ n then some (List.replicate n.toNat (some '\x00')) else none

/-- `strncpy` to the start of an array: `n` bytes, those of the string `src` and then
NULs. -/
def strncpy (b : CBuf) (src : Text) (n : ℤ) : Option CBuf :=
  if 0 ≤ n then
    let s := (src.take n.toNat).takeWhile (· ≠ '\x00')
    memcpy b 0 (s ++ List.replicate (n.toNat - s.length) '\x00')
  else none

/-- A string copied into an array that is one byte longer. -/
theorem strncpy_calloc {src : Text} {n : ℕ} (hn : n ≤ src.length) (h : '\x00' ∉ src) :
    ∃ b, calloc (n + 1) = some b ∧ strncpy b src n = some ((src.take n).map some ++ [some '\x00']) := by
  have hs : (src.take n).takeWhile (· ≠ '\x00') = src.take n := by
    refine List.takeWhile_eq_self_iff.mpr ?_
    intro c hc
    have hne : c ≠ '\x00' := by
      rintro rfl
      exact h (List.mem_of_mem_take hc)
    simpa using hne
  have hlen : (src.take n).length = n := by simpa using hn
  refine ⟨List.replicate (n + 1) (some '\x00'), ?_, ?_⟩
  · rw [calloc, if_pos (by omega)]
    rfl
  · have hb : List.replicate (n + 1) (some '\x00') = [] ++ (List.replicate n (some '\x00') ++ [some '\x00']) :=
      List.replicate_succ'
    have hcopy := memcpy_middle [] (List.replicate n (some '\x00')) [some '\x00']
      (show (List.replicate n (some '\x00')).length = (src.take n).length by rw [List.length_replicate, hlen])
    rw [strncpy, if_pos (Int.natCast_nonneg n), Int.toNat_natCast]
    simp only [hs, hlen, Nat.sub_self, List.replicate_zero, List.append_nil]
    rw [hb]
    exact hcopy

end CBuf

end Lib
end Csc501

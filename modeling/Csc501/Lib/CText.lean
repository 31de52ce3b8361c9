/-
# Text the way the C library handles it

A string is the list of its characters, one for each byte, without the final
NUL. Here is what `strtok`, `%d` of `printf` and `scanf`, and `%[^c]` of
`scanf` do to one, with the facts that let text be taken apart again: cutting
at a delimiter and then into tokens is cutting into tokens, a cut inside a
token makes one token too many, and `%d` reads back what `%d` wrote.

Key definitions: `tokens`, `decimal`, `zeroPad`, `scanUntil`, `scanInt`.
Key theorems: `tokens_append_of_clean`, `length_tokens_append_of_inside`,
`flatten_tokens`, `scanInt_decimal`, `scanInt_decimalInt`, `scanInt_zeroPad`, `head_decimal`, `ofDigitChars_lt`.
-/
import Mathlib.Data.List.TakeWhile
import Mathlib.Tactic.Ring

namespace Csc501
namespace Lib

/-- A C string, without its final NUL. -/
abbrev Text := List Char

/-- The string in a buffer: it ends at the first NUL. -/
def cstr (b : List Char) : Text := b.takeWhile (· ≠ '\x00')

theorem cstr_eq_self {b : List Char} (h : '\x00' ∉ b) : cstr b = b := by
  apply List.takeWhile_eq_self_iff.mpr
  intro c hc
  have : c ≠ '\x00' := fun h' => h (h' ▸ hc)
  simpa using this

/-! ### `strtok` -/

section Tokens

variable {α : Type*} [DecidableEq α] {d : α}

/-- What `strtok` with the one delimiter `d` gives, call after call: the pieces
between delimiters that are not empty. -/
def tokens (d : α) (s : List α) : List (List α) := (s.splitOn d).filter (· ≠ [])

@[simp] theorem tokens_nil : tokens d [] = [] := by simp [tokens, List.splitOn_eq_splitOnP]

theorem tokens_append_cons (a b : List α) : tokens d (a ++ d :: b) = tokens d a ++ tokens d b := by
  rw [tokens, List.splitOn_append_cons_self, List.filter_append]
  rfl

theorem tokens_cons_self (b : List α) : tokens d (d :: b) = tokens d b := by
  simpa using tokens_append_cons [] b

theorem tokens_concat_self (a : List α) : tokens d (a ++ [d]) = tokens d a := by
  simpa using tokens_append_cons a []

theorem tokens_word {w : List α} (hne : w ≠ []) (hd : d ∉ w) : tokens d w = [w] := by
  rw [tokens, List.splitOn_eq_singleton hd]
  simp [hne]

theorem tokens_word_cons {w : List α} (hne : w ≠ []) (hd : d ∉ w) (b : List α) :
    tokens d (w ++ d :: b) = w :: tokens d b := by
  rw [tokens_append_cons, tokens_word hne hd, List.singleton_append]

/-- Either there is no delimiter, or there is a last one. -/
theorem exists_last_delim (d : α) (s : List α) : d ∉ s ∨ ∃ u w, s = u ++ d :: w ∧ d ∉ w := by
  by_cases h : d ∈ s
  · right
    obtain ⟨u, w, hs, hu⟩ := List.eq_append_cons_of_mem (List.mem_reverse.mpr h)
    refine ⟨w.reverse, u.reverse, ?_, by simpa using hu⟩
    rw [← List.reverse_reverse s, hs]
    simp
  · exact Or.inl h

/-- Either there is no delimiter, or there is a first one. -/
theorem exists_first_delim (d : α) (s : List α) : d ∉ s ∨ ∃ w v, s = w ++ d :: v ∧ d ∉ w := by
  by_cases h : d ∈ s
  · obtain ⟨w, v, hs, hw⟩ := List.eq_append_cons_of_mem h
    exact Or.inr ⟨w, v, hs, hw⟩
  · exact Or.inl h

/-- A text is tokens up to its last token, if it does not end in a delimiter. -/
theorem tokens_last {s : List α} {x : α} (h : s.getLast? = some x) (hx : x ≠ d) :
    ∃ u w, w ≠ [] ∧ d ∉ w ∧ tokens d s = tokens d u ++ [w] ∧
      ∀ b, tokens d (s ++ b) = tokens d u ++ tokens d (w ++ b) := by
  rcases exists_last_delim d s with hs | ⟨u, w, rfl, hw⟩
  · have hne : s ≠ [] := by rintro rfl; simp at h
    exact ⟨[], s, hne, hs, by simp [tokens_word hne hs], fun b => by simp⟩
  · have hne : w ≠ [] := by
      rintro rfl
      exact hx (by simpa using h.symm)
    refine ⟨u, w, hne, hw, ?_, fun b => ?_⟩
    · rw [tokens_append_cons, tokens_word hne hw]
    · rw [List.append_assoc, List.cons_append, tokens_append_cons]

/-- **A clean cut**, one with a delimiter on one of its sides (or at an end of
the text), cuts no token. -/
theorem tokens_append_of_clean {a b : List α}
    (h : a = [] ∨ a.getLast? = some d ∨ b = [] ∨ b.head? = some d) :
    tokens d (a ++ b) = tokens d a ++ tokens d b := by
  rcases h with rfl | h | rfl | h
  · simp
  · obtain ⟨a', rfl⟩ := List.getLast?_eq_some_iff.mp h
    rw [List.append_assoc, List.singleton_append, tokens_append_cons, tokens_concat_self]
  · simp
  · obtain ⟨b', rfl⟩ := List.head?_eq_some_iff.mp h
    rw [tokens_append_cons, tokens_cons_self]

/-- **A cut inside a token** makes two of it. -/
theorem length_tokens_append_of_inside {a b : List α} {x y : α} (ha : a.getLast? = some x) (hx : x ≠ d)
    (hb : b.head? = some y) (hy : y ≠ d) :
    (tokens d (a ++ b)).length + 1 = (tokens d a).length + (tokens d b).length := by
  obtain ⟨u, w, hne, hw, h1, h2⟩ := tokens_last ha hx
  rw [h2, h1]
  rcases exists_first_delim d b with hb' | ⟨w', v, rfl, hw'⟩
  · have hbne : b ≠ [] := by rintro rfl; simp at hb
    have hwb : d ∉ w ++ b := by simp [hw, hb']
    rw [tokens_word (by simp [hne]) hwb, tokens_word hbne hb']
    simp
  · have hne' : w' ≠ [] := by
      rintro rfl
      exact hy (by simpa using hb.symm)
    have hww : d ∉ w ++ w' := by simp [hw, hw']
    rw [← List.append_assoc, tokens_word_cons (by simp [hne]) hww, tokens_word_cons hne' hw']
    simp only [List.length_append, List.length_cons, List.length_nil]
    omega

/-- No character is lost but the delimiters. -/
theorem flatten_tokens (s : List α) : (tokens d s).flatten = s.filter (· ≠ d) := by
  induction s with
  | nil => simp
  | cons c s ih =>
    by_cases hc : c = d
    · subst hc
      rw [tokens_cons_self, ih]
      simp
    · have hsplit := List.splitOn_cons_eq_if_modifyHead (a := d) c s
      rw [if_neg (by simpa using hc)] at hsplit
      rw [List.filter_cons_of_pos (by simpa using hc), ← ih, tokens, hsplit, tokens]
      obtain ⟨p, ps, hp⟩ := List.exists_cons_of_ne_nil (List.splitOn_ne_nil d s)
      rw [hp]
      by_cases hpn : p = []
      · subst hpn; simp
      · simp [hpn]

end Tokens

/-! ### `%d` -/

/-- What `%d` prints for a number that is not negative. -/
def decimal (n : ℕ) : Text := Nat.toDigits 10 n

/-- What `%d` prints for any number. -/
def decimalInt (z : ℤ) : Text := if z < 0 then '-' :: decimal z.natAbs else decimal z.natAbs

@[simp] theorem decimalInt_natCast (n : ℕ) : decimalInt n = decimal n := by
  simp [decimalInt]

/-- What `%0wd` prints for a number that is not negative. -/
def zeroPad (w n : ℕ) : Text := List.replicate (w - (decimal n).length) '0' ++ decimal n

/-- The `isspace` of the C locale. -/
def isSpace (c : Char) : Bool := c = ' ' || ('\t' ≤ c && c ≤ '\r')

/-- `%d` of `scanf`: blanks, a sign, digits; the number and what is left. -/
def scanInt (s : Text) : Option (ℤ × Text) :=
  let s := s.dropWhile isSpace
  let sign : ℤ × Text := match s with
    | '-' :: s => (-1, s)
    | '+' :: s => (1, s)
    | s => (1, s)
  let digits := sign.2.takeWhile Char.isDigit
  if digits = [] then none
  else some (sign.1 * Nat.ofDigitChars 10 digits 0, sign.2.dropWhile Char.isDigit)

/-- `%[^c]` of `scanf`: everything up to the first `c`, at least one character. -/
def scanUntil (c : Char) (s : Text) : Option (Text × Text) :=
  if s.takeWhile (· ≠ c) = [] then none else some (s.takeWhile (· ≠ c), s.dropWhile (· ≠ c))

/-- A character of a `scanf` format that stands for itself. -/
def scanChar (c : Char) : Text → Option Text
  | x :: s => if x = c then some s else none
  | [] => none

theorem isDigit_decimal {n : ℕ} {c : Char} (h : c ∈ decimal n) : c.isDigit = true :=
  Nat.isDigit_of_mem_toDigits (by decide) (by decide) h

theorem decimal_ne_nil (n : ℕ) : decimal n ≠ [] := Nat.toDigits_ne_nil

theorem isDigit_zeroPad {w n : ℕ} {c : Char} (h : c ∈ zeroPad w n) : c.isDigit = true := by
  rcases List.mem_append.mp h with h | h
  · rw [(List.mem_replicate.mp h).2]; decide
  · exact isDigit_decimal h

theorem length_zeroPad {w n : ℕ} (h : (decimal n).length ≤ w) : (zeroPad w n).length = w := by
  simp [zeroPad, h]

theorem length_decimal_le {n k : ℕ} (hk : 0 < k) (h : n < 10 ^ k) : (decimal n).length ≤ k :=
  (Nat.length_toDigits_le_iff (by decide) hk).mpr h

theorem not_isSpace_of_isDigit {c : Char} (h : c.isDigit = true) : isSpace c = false := by
  rw [Char.isDigit] at h
  simp only [ge_iff_le, Bool.and_eq_true, decide_eq_true_eq] at h
  have h1 : c ≠ ' ' := by rintro rfl; exact absurd h.1 (by decide)
  have h2 : ¬ c ≤ '\r' := fun h' => absurd (UInt32.le_trans h.1 h') (by decide)
  simp [isSpace, h1, h2]

/-- Digits end at the first character that is none. -/
theorem cut_digits {ds r : Text} (hd : ∀ c ∈ ds, c.isDigit = true) (hr : ∀ c ∈ r.head?, c.isDigit = false) :
    (ds ++ r).takeWhile Char.isDigit = ds ∧ (ds ++ r).dropWhile Char.isDigit = r := by
  rw [List.takeWhile_append_of_pos hd, List.dropWhile_append_of_pos hd]
  cases r with
  | nil => simp
  | cons y r => simp [hr y rfl]

/-- Digits are read back, up to the first character that is none. -/
theorem scanInt_digits {ds r : Text} (hne : ds ≠ []) (hd : ∀ c ∈ ds, c.isDigit = true)
    (hr : ∀ c ∈ r.head?, c.isDigit = false) :
    scanInt (ds ++ r) = some ((Nat.ofDigitChars 10 ds 0 : ℤ), r) := by
  obtain ⟨x, ds', rfl⟩ := List.exists_cons_of_ne_nil hne
  have hx := hd x List.mem_cons_self
  have hsp : ((x :: ds') ++ r).dropWhile isSpace = (x :: ds') ++ r := by
    rw [List.cons_append, List.dropWhile_cons_of_neg (by simp [not_isSpace_of_isDigit hx])]
  obtain ⟨htake, hdrop⟩ := cut_digits hd hr
  have h1 : x ≠ '-' := by rintro rfl; exact absurd hx (by decide)
  have h2 : x ≠ '+' := by rintro rfl; exact absurd hx (by decide)
  have hsign : (match (x :: ds') ++ r with
      | '-' :: s => ((-1 : ℤ), s)
      | '+' :: s => (1, s)
      | s => (1, s)) = (1, (x :: ds') ++ r) := by
    rw [List.cons_append]
    split
    · rename_i h; exact absurd (List.cons.inj h).1 h1
    · rename_i h; exact absurd (List.cons.inj h).1 h2
    · rfl
  unfold scanInt
  simp only [hsp, hsign, htake, hdrop]
  simp

/-- `%d` reads what `%d` wrote. -/
theorem scanInt_decimal (n : ℕ) {r : Text} (hr : ∀ c ∈ r.head?, c.isDigit = false) :
    scanInt (decimal n ++ r) = some ((n : ℤ), r) := by
  rw [scanInt_digits (decimal_ne_nil n) (fun _ h => isDigit_decimal h) hr]
  simp [decimal]

/-- A sign is read first. -/
theorem scanInt_minus {ds r : Text} (hne : ds ≠ []) (hd : ∀ c ∈ ds, c.isDigit = true)
    (hr : ∀ c ∈ r.head?, c.isDigit = false) :
    scanInt ('-' :: (ds ++ r)) = some (-(Nat.ofDigitChars 10 ds 0 : ℤ), r) := by
  have hsp : ('-' :: (ds ++ r)).dropWhile isSpace = '-' :: (ds ++ r) := List.dropWhile_cons_of_neg (by decide)
  obtain ⟨htake, hdrop⟩ := cut_digits hd hr
  unfold scanInt
  simp only [hsp, htake, hdrop, if_neg hne, neg_mul, one_mul]

theorem scanInt_decimalInt (z : ℤ) {r : Text} (hr : ∀ c ∈ r.head?, c.isDigit = false) :
    scanInt (decimalInt z ++ r) = some (z, r) := by
  unfold decimalInt
  split_ifs with hz
  · rw [List.cons_append, scanInt_minus (decimal_ne_nil _) (fun _ h => isDigit_decimal h) hr]
    simp only [decimal, Nat.ofDigitChars_ten_toDigits, Option.some.injEq, Prod.mk.injEq, and_true]
    omega
  · rw [scanInt_decimal _ hr]
    simp only [Option.some.injEq, Prod.mk.injEq, and_true]
    omega

/-- One digit more. -/
theorem decimal_of_le {n : ℕ} (h : 10 ≤ n) : decimal n = decimal (n / 10) ++ [(n % 10).digitChar] :=
  Nat.toDigits_of_base_le (by decide) h

/-- Only zero begins with a zero. -/
theorem head_decimal {n : ℕ} (h : (decimal n).head? = some '0') : n = 0 := by
  induction n using Nat.strongRecOn with
  | ind n ih =>
    by_cases hn : n < 10
    · rw [decimal, Nat.toDigits_of_lt_base hn] at h
      simpa using h
    · obtain ⟨c, ds, hds⟩ := List.exists_cons_of_ne_nil (decimal_ne_nil (n / 10))
      rw [decimal_of_le (by omega), hds] at h
      have hzero := ih (n / 10) (by omega) (by rw [hds]; exact h)
      omega

/-- A number is bounded by how many digits it is read from. -/
theorem ofDigitChars_lt {ds : Text} (hd : ∀ c ∈ ds, c.isDigit = true) : Nat.ofDigitChars 10 ds 0 < 10 ^ ds.length := by
  induction ds with
  | nil => decide
  | cons c ds ih =>
    rw [List.forall_mem_cons] at hd
    have hc : c.toNat - '0'.toNat ≤ 9 := by
      have hle := hd.1
      simp only [Char.isDigit, Bool.and_eq_true, decide_eq_true_eq] at hle
      have h9 : c.toNat ≤ '9'.toNat := hle.2
      exact Nat.sub_le_of_le_add h9
    rw [Nat.ofDigitChars_cons, Nat.ofDigitChars_eq_ofDigitChars_zero]
    calc 10 ^ ds.length * (10 * 0 + (c.toNat - '0'.toNat)) + Nat.ofDigitChars 10 ds 0
        < 10 ^ ds.length * (10 * 0 + (c.toNat - '0'.toNat)) + 10 ^ ds.length := Nat.add_lt_add_left (ih hd.2) _
      _ = 10 ^ ds.length * (c.toNat - '0'.toNat + 1) := by ring
      _ ≤ 10 ^ ds.length * 10 := Nat.mul_le_mul_left _ (by omega)
      _ = 10 ^ (c :: ds).length := rfl

/-- So it does with leading zeros. -/
theorem scanInt_zeroPad (w n : ℕ) {r : Text} (hr : ∀ c ∈ r.head?, c.isDigit = false) :
    scanInt (zeroPad w n ++ r) = some ((n : ℤ), r) := by
  rw [scanInt_digits (by simp [zeroPad, decimal_ne_nil]) (fun _ h => isDigit_zeroPad h) hr]
  simp [zeroPad, decimal, Nat.ofDigitChars_append]

/-- `%[^c]` stops at the first `c`. -/
theorem scanUntil_append {c : Char} {w r : Text} (hne : w ≠ []) (hw : c ∉ w) :
    scanUntil c (w ++ c :: r) = some (w, c :: r) := by
  have hpos : ∀ x ∈ w, (x ≠ c : Bool) = true := by
    intro x hx
    have : x ≠ c := fun h => hw (h ▸ hx)
    simpa using this
  unfold scanUntil
  rw [List.takeWhile_append_of_pos hpos, List.dropWhile_append_of_pos hpos]
  simp [hne]

end Lib
end Csc501

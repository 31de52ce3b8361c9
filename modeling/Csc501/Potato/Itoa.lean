/-
# Numbers written by hand

`itoa` and `reverse` of `utils.c`, which `hw3` and `hw4` have in common, on the array
they store into. `itoa` makes the number positive, stores its digits from the last one
on, then the sign and a NUL, and has the string reversed where it is, by two indices that
come towards each other. A store outside of the array is `none`.

Whatever the digits are, what is left is the sign and the digits in the other order
(`itoa_of_digits`), and the digits are those of the number if there is a positive one:
the smallest `int` has none, and its negation is itself. So the number is written as it
should be, and is read back, exactly if it is not the smallest one and the array is long
enough (`itoa_iff`). The array of `gethostaddrinfo` is, for every port (`itoa_port`).

Key definitions: `reverseLoop`, `reverse`, `digitLoop`, `itoa`, `Canonical`.
Key theorems: `reverseLoop_eq`, `digitLoop_eq`, `itoa_of_digits`, `itoa_iff`, `itoa_port`.
-/
import Csc501.Lib.CBuf
import Csc501.Lib.CMem
import Csc501.Potato.Wire
import Mathlib.Data.List.Induction

namespace Csc501
namespace Potato

open Lib

/-! ### The functions -/

/-- The loop of `reverse`. -/
def reverseLoop (s : CBuf) (i j : ℤ) : Option CBuf :=
  if i < j then do
    let c ← s.load i
    let d ← s.load j
    let s ← s.store i d
    let s ← s.store j c
    reverseLoop s (i + 1) (j - 1)
  else some s
termination_by (j - i).toNat
decreasing_by omega

/-- `reverse`; the length is a `size_t` and `j` an `int`. -/
def reverse (s : CBuf) : Option CBuf := do
  let text ← s.string
  reverseLoop s 0 (toInt (toSize ((text.length : ℤ) - 1)))

/-- `n % 10 + '0'`. -/
def lastDigit (n : ℤ) : Char := Char.ofNat (n.tmod 10 + 48).toNat

theorem tdiv_ten_lt {n : ℤ} (h : 0 < n.tdiv 10) : (n.tdiv 10).toNat < n.toNat := by
  have hn : 0 ≤ n := by
    by_contra hneg
    have hpos : 0 ≤ (-n).tdiv 10 := Int.tdiv_nonneg (by omega) (by decide)
    rw [Int.neg_tdiv] at hpos
    omega
  rw [Int.tdiv_eq_ediv_of_nonneg hn] at h ⊢
  omega

/-- The `do` loop of `itoa`, which stores at least one digit. -/
def digitLoop (s : CBuf) (i n : ℤ) : Option (CBuf × ℤ) := do
  let s ← s.store i (lastDigit n)
  if 0 < n.tdiv 10 then digitLoop s (i + 1) (n.tdiv 10) else some (s, i + 1)
termination_by n.toNat
decreasing_by exact tdiv_ten_lt ‹_›

/-- `itoa`. The negation of the smallest `int` wraps around. -/
def itoa (n : ℤ) (s : CBuf) : Option CBuf := do
  let (s, i) ← digitLoop s 0 (if n < 0 then toInt (-n) else n)
  let (s, i) ← if n < 0 then (s.store i '-').map (·, i + 1) else some (s, i)
  let s ← s.store i '\x00'
  reverse s

/-! ### Reversing -/

/-- The characters at the indices change places. -/
theorem reverseLoop_step (pre mid post : CBuf) (c d : Char) :
    reverseLoop (pre ++ some c :: (mid ++ some d :: post)) pre.length ((pre.length : ℤ) + mid.length + 1) =
      reverseLoop (pre ++ some d :: (mid ++ some c :: post)) ((pre.length : ℤ) + 1)
        ((pre.length : ℤ) + mid.length) := by
  have hj : ∀ x : Option Char, (pre.length : ℤ) + mid.length + 1 = (pre ++ x :: mid).length := by
    intro x
    rw [List.length_append, List.length_cons]
    omega
  have hassoc : ∀ (x : Option Char) (y : CBuf), pre ++ x :: (mid ++ y) = (pre ++ x :: mid) ++ y := by
    intro x y
    rw [List.append_assoc, List.cons_append]
  have hload : CBuf.load (pre ++ some c :: (mid ++ some d :: post)) ((pre.length : ℤ) + mid.length + 1) = some d := by
    rw [hassoc, hj (some c), CBuf.load_middle]
  have hstore : CBuf.store (pre ++ some d :: (mid ++ some d :: post)) ((pre.length : ℤ) + mid.length + 1) c =
      some (pre ++ some d :: (mid ++ some c :: post)) := by
    rw [hassoc, hj (some d), CBuf.store_middle, ← hassoc]
  rw [reverseLoop, if_pos (by omega), CBuf.load_middle, hload]
  simp only [Option.bind_eq_bind, Option.bind_some]
  rw [CBuf.store_middle, Option.bind_some, hstore, Option.bind_some]
  congr 1
  omega

/-- **What is between the indices is reversed.** -/
theorem reverseLoop_eq (text : Text) : ∀ pre post : CBuf,
    reverseLoop (pre ++ (text.map some ++ post)) pre.length ((pre.length : ℤ) + text.length - 1) =
      some (pre ++ (text.reverse.map some ++ post)) := by
  induction text using List.bidirectionalRec with
  | nil =>
    intro pre post
    rw [reverseLoop, if_neg (by simp)]
    rfl
  | singleton c =>
    intro pre post
    rw [reverseLoop, if_neg (by simp)]
    rfl
  | cons_append c text d ih =>
    intro pre post
    have hstep := reverseLoop_step pre (text.map some) post c d
    have hrest := ih (pre ++ [some d]) (some c :: post)
    have hj : (pre.length : ℤ) + (c :: (text ++ [d])).length - 1 = (pre.length : ℤ) + (text.map some).length + 1 := by
      simp only [List.length_cons, List.length_append, List.length_map, List.length_nil]
      omega
    have hj' : (((pre ++ [some d]).length : ℕ) : ℤ) + text.length - 1 = (pre.length : ℤ) + (text.map some).length := by
      simp only [List.length_cons, List.length_append, List.length_map, List.length_nil]
      omega
    have hi' : (((pre ++ [some d]).length : ℕ) : ℤ) = (pre.length : ℤ) + 1 := by simp
    rw [hj', hi', List.append_assoc, List.singleton_append] at hrest
    rw [hj]
    have hbuf : pre ++ ((c :: (text ++ [d])).map some ++ post) =
        pre ++ some c :: (text.map some ++ some d :: post) := by
      simp
    rw [hbuf, hstep, hrest]
    simp

/-- A string is reversed, and its NUL stays where it is. -/
theorem reverse_eq {text : Text} (hne : text ≠ []) (hnul : '\x00' ∉ text) (hlen : text.length ≤ 2 ^ 31) (post : CBuf) :
    reverse (text.map some ++ some '\x00' :: post) = some (text.reverse.map some ++ some '\x00' :: post) := by
  have hpos : 0 < text.length := List.length_pos_iff.mpr hne
  have hj : toInt (toSize ((text.length : ℤ) - 1)) = (text.length : ℤ) - 1 := by
    rw [toSize_eq_self (by omega) (by omega)]
    exact toInt_eq_self (by omega) (by omega)
  have hloop := reverseLoop_eq text [] (some '\x00' :: post)
  simp only [List.nil_append, List.length_nil, Int.natCast_zero, Int.zero_add] at hloop
  unfold reverse
  rw [CBuf.string_append hnul, Option.bind_eq_bind, Option.bind_some, hj, hloop]

/-! ### Digits -/

theorem lastDigit_natCast (n : ℕ) : lastDigit n = (n % 10).digitChar := by
  have hlt : n % 10 < 10 := Nat.mod_lt n (by decide)
  have hmod : ((n : ℤ).tmod 10 + 48).toNat = n % 10 + 48 := by
    rw [Int.tmod_eq_emod_of_nonneg (Int.natCast_nonneg n)]
    omega
  have hchar : ∀ d < 10, Char.ofNat (d + 48) = d.digitChar := by decide
  unfold lastDigit
  rw [hmod, hchar _ hlt]

/-- **The digits of a number are stored from the last one on.** -/
theorem digitLoop_eq (n : ℕ) : ∀ pre rest : CBuf, (decimal n).length ≤ rest.length →
    digitLoop (pre ++ rest) pre.length n =
      some (pre ++ ((decimal n).reverse.map some ++ rest.drop (decimal n).length),
        (pre.length : ℤ) + (decimal n).length) := by
  induction n using Nat.strongRecOn with
  | ind n ih =>
    intro pre rest hlen
    have hpos : 0 < (decimal n).length := List.length_pos_iff.mpr (decimal_ne_nil n)
    obtain ⟨x, rest, rfl⟩ := List.exists_cons_of_ne_nil (List.ne_nil_of_length_pos (hpos.trans_le hlen))
    have hdiv : (n : ℤ).tdiv 10 = (n / 10 : ℕ) := Int.tdiv_eq_ediv_of_nonneg (Int.natCast_nonneg n)
    rw [digitLoop, CBuf.store_middle, lastDigit_natCast, Option.bind_eq_bind, Option.bind_some, hdiv]
    by_cases hn : n < 10
    · have hlast : decimal n = [(n % 10).digitChar] := by
        rw [Nat.mod_eq_of_lt hn]
        exact Nat.toDigits_of_lt_base hn
      rw [if_neg (by omega), hlast]
      rfl
    · have hmore : decimal n = decimal (n / 10) ++ [(n % 10).digitChar] := decimal_of_le (by omega)
      have hrest := ih (n / 10) (by omega) (pre ++ [some (n % 10).digitChar]) rest (by
        rw [hmore, List.length_append] at hlen
        exact Nat.le_of_succ_le_succ hlen)
      have hi : (pre.length : ℤ) + 1 = ((pre ++ [some (n % 10).digitChar]).length : ℕ) := by simp
      have hbuf : pre ++ some (n % 10).digitChar :: rest = (pre ++ [some (n % 10).digitChar]) ++ rest := by simp
      have hend : (((pre ++ [some (n % 10).digitChar]).length : ℕ) : ℤ) + (decimal (n / 10)).length =
          (pre.length : ℤ) + (decimal (n / 10) ++ [(n % 10).digitChar]).length := by
        simp only [List.length_append, List.length_singleton]
        omega
      rw [if_pos (by omega), hi, hbuf, hrest, hmore, hend]
      simp

/-- The NUL is stored, and the string reversed. -/
theorem finish_eq {text : Text} {s : CBuf} (hne : text ≠ []) (hnul : '\x00' ∉ text) (hlen : text.length ≤ 2 ^ 31)
    (hroom : text.length < s.length) :
    ∃ post, (CBuf.store (text.map some ++ s.drop text.length) (text.length : ℤ) '\x00').bind reverse =
      some (text.reverse.map some ++ some '\x00' :: post) := by
  have hend := CBuf.store_middle (text.map some) s[text.length] (s.drop (text.length + 1)) '\x00'
  rw [List.length_map, ← List.drop_eq_getElem_cons hroom] at hend
  exact ⟨s.drop (text.length + 1), by rw [hend, Option.bind_some, reverse_eq hne hnul hlen]⟩

/-- **What `itoa` leaves**, whichever digits the loop has stored: the sign, if there is one,
and the digits in the other order. -/
theorem itoa_of_digits {n : ℤ} {s : CBuf} {ds : Text} (hne : ds ≠ []) (hnul : '\x00' ∉ ds) (hlen : ds.length < 2 ^ 31)
    (hroom : (if n < 0 then '-' :: ds.reverse else ds.reverse).length < s.length)
    (hds : digitLoop s 0 (if n < 0 then toInt (-n) else n) =
      some (ds.map some ++ s.drop ds.length, (ds.length : ℤ))) :
    ∃ post, itoa n s =
      some ((if n < 0 then '-' :: ds.reverse else ds.reverse).map some ++ some '\x00' :: post) := by
  unfold itoa
  rw [hds, Option.bind_eq_bind, Option.bind_some]
  by_cases hn : n < 0
  · rw [if_pos hn, List.length_cons, List.length_reverse] at hroom
    have hlt : ds.length < s.length := by omega
    -- the sign is one character more
    have hsign := CBuf.store_middle (ds.map some) s[ds.length] (s.drop (ds.length + 1)) '-'
    have hbuf : ds.map some ++ some '-' :: s.drop (ds.length + 1) =
        (ds ++ ['-']).map some ++ s.drop (ds ++ ['-']).length := by simp
    have hi : (ds.length : ℤ) + 1 = ((ds ++ ['-']).length : ℕ) := by simp
    rw [List.length_map, ← List.drop_eq_getElem_cons hlt, hbuf] at hsign
    have hne' : ds ++ ['-'] ≠ [] := by simp
    obtain ⟨post, hpost⟩ := finish_eq (s := s) hne' (by simp [hnul]) (by simp; omega) (by simpa using hroom)
    refine ⟨post, ?_⟩
    simp only [if_pos hn, hsign, Option.map_some, Option.bind_eq_bind, Option.bind_some, hi]
    rw [hpost]
    simp
  · rw [if_neg hn, List.length_reverse] at hroom
    obtain ⟨post, hpost⟩ := finish_eq hne hnul (by omega) hroom
    refine ⟨post, ?_⟩
    simp only [if_neg hn, Option.bind_eq_bind, Option.bind_some]
    rw [hpost]

/-! ### The array stays as long as it is -/

theorem length_reverseLoop {s b : CBuf} {i j : ℤ} (h : reverseLoop s i j = some b) : b.length = s.length := by
  induction s, i, j using reverseLoop.induct with
  | case1 s i j hij ih =>
    rw [reverseLoop, if_pos hij] at h
    obtain ⟨c, -, h⟩ := Option.bind_eq_some_iff.mp h
    obtain ⟨d, -, h⟩ := Option.bind_eq_some_iff.mp h
    obtain ⟨s1, h1, h⟩ := Option.bind_eq_some_iff.mp h
    obtain ⟨s2, h2, h⟩ := Option.bind_eq_some_iff.mp h
    rw [ih s2 h, CBuf.length_store h2, CBuf.length_store h1]
  | case2 s i j hij =>
    rw [reverseLoop, if_neg hij] at h
    rw [Option.some.inj h]

theorem length_digitLoop {s b : CBuf} {i n i' : ℤ} (h : digitLoop s i n = some (b, i')) : b.length = s.length := by
  induction s, i, n using digitLoop.induct with
  | case1 s i n ih =>
    rw [digitLoop] at h
    obtain ⟨s1, h1, h⟩ := Option.bind_eq_some_iff.mp h
    split_ifs at h with hn
    · rw [ih s1 hn h, CBuf.length_store h1]
    · obtain ⟨rfl, -⟩ := Prod.mk.inj (Option.some.inj h)
      exact CBuf.length_store h1

theorem length_finish {s b : CBuf} {i : ℤ} (h : (s.store i '\x00').bind reverse = some b) : b.length = s.length := by
  obtain ⟨s1, h1, h⟩ := Option.bind_eq_some_iff.mp h
  unfold reverse at h
  obtain ⟨text, -, h⟩ := Option.bind_eq_some_iff.mp h
  rw [length_reverseLoop h, CBuf.length_store h1]

theorem length_itoa {n : ℤ} {s b : CBuf} (h : itoa n s = some b) : b.length = s.length := by
  unfold itoa at h
  obtain ⟨⟨s1, i⟩, h1, h⟩ := Option.bind_eq_some_iff.mp h
  by_cases hn : n < 0
  · simp only [if_pos hn] at h
    obtain ⟨⟨s2, j⟩, h2, h⟩ := Option.bind_eq_some_iff.mp h
    obtain ⟨s', hs', heq⟩ := Option.map_eq_some_iff.mp h2
    obtain ⟨rfl, rfl⟩ := Prod.mk.inj heq
    rw [length_finish h, CBuf.length_store hs', length_digitLoop h1]
  · simp only [if_neg hn, Option.bind_eq_bind, Option.bind_some] at h
    rw [length_finish h, length_digitLoop h1]

/-! ### The number -/

/-- The text of a number: the sign of a negative one, digits without a zero that could be
left out, and the number if it is read again. -/
structure Canonical (n : ℤ) (t : Text) : Prop where
  shape : ∃ ds : Text, t = (if n < 0 then '-' :: ds else ds) ∧ ds ≠ [] ∧ (∀ c ∈ ds, c.isDigit = true) ∧
    (ds.head? = some '0' → ds = ['0'])
  value : scanInt t = some (n, [])

theorem canonical_decimalInt (n : ℤ) : Canonical n (decimalInt n) := by
  constructor
  · refine ⟨decimal n.natAbs, rfl, decimal_ne_nil _, fun c hc => isDigit_decimal hc, ?_⟩
    intro hzero
    rw [head_decimal hzero]
    rfl
  · simpa using scanInt_decimalInt n (r := []) (by simp)

/-- No text of a number is shorter than `%d`'s. -/
theorem Canonical.length_le {n : ℤ} {t : Text} (h : Canonical n t) : (decimalInt n).length ≤ t.length := by
  obtain ⟨ds, rfl, hne, hd, -⟩ := h.shape
  have hval := h.value
  have hle : (decimal (Nat.ofDigitChars 10 ds 0)).length ≤ ds.length :=
    length_decimal_le (List.length_pos_iff.mpr hne) (ofDigitChars_lt hd)
  -- the digits are those of the number without its sign
  have hds : n.natAbs = Nat.ofDigitChars 10 ds 0 := by
    split_ifs at hval with hn
    · have hread := scanInt_minus (r := []) hne hd (by simp)
      rw [List.append_nil, hval] at hread
      have hn' := (Prod.mk.inj (Option.some.inj hread)).1
      omega
    · have hread := scanInt_digits (r := []) hne hd (by simp)
      rw [List.append_nil, hval] at hread
      have hn' := (Prod.mk.inj (Option.some.inj hread)).1
      omega
  unfold decimalInt
  rw [hds]
  split_ifs
  · exact Nat.succ_le_succ hle
  · exact hle

theorem nul_notMem_decimalInt (n : ℤ) : '\x00' ∉ decimalInt n := by
  have hnul : '\x00' ∉ decimal n.natAbs := (plain_decimal _).2
  unfold decimalInt
  split_ifs
  · simp [hnul]
  · exact hnul

/-- A number that has a positive one is written as `%d` would. -/
theorem itoa_eq {n : ℤ} (h1 : -2 ^ 31 < n) (h2 : n < 2 ^ 31) {s : CBuf} (hroom : (decimalInt n).length < s.length) :
    ∃ b, itoa n s = some b ∧ b.string = some (decimalInt n) := by
  have hne : (decimal n.natAbs).reverse ≠ [] := by
    rw [Ne, List.reverse_eq_nil_iff]
    exact decimal_ne_nil _
  have hnul : '\x00' ∉ (decimal n.natAbs).reverse := by
    rw [List.mem_reverse]
    exact (plain_decimal _).2
  have hlen : (decimal n.natAbs).length ≤ 10 := length_decimal_le (by decide) (by omega)
  have habs : (if n < 0 then toInt (-n) else n) = (n.natAbs : ℕ) := by
    split_ifs with hn
    · rw [toInt_eq_self (by omega) (by omega)]
      omega
    · omega
  have htext : (if n < 0 then '-' :: (decimal n.natAbs).reverse.reverse else (decimal n.natAbs).reverse.reverse) =
      decimalInt n := by
    rw [List.reverse_reverse]
    rfl
  have hfit : (decimal n.natAbs).length ≤ s.length := by
    unfold decimalInt at hroom
    split_ifs at hroom
    · rw [List.length_cons] at hroom
      omega
    · omega
  have hdigits := digitLoop_eq n.natAbs [] s hfit
  obtain ⟨post, hpost⟩ := itoa_of_digits (n := n) (s := s) hne hnul (by rw [List.length_reverse]; omega)
    (by rw [htext]; exact hroom) (by rw [habs]; simpa using hdigits)
  rw [htext] at hpost
  exact ⟨_, hpost, CBuf.string_append (nul_notMem_decimalInt n) post⟩

/-- The smallest number stays negative, and its last digit is eight below `'0'`. -/
theorem itoa_min {s : CBuf} (hroom : 2 < s.length) : ∃ b, itoa (-2 ^ 31) s = some b ∧ b.string = some ['-', '('] := by
  have hneg : (if (-2 ^ 31 : ℤ) < 0 then toInt (-(-2 ^ 31)) else -2 ^ 31) = -2 ^ 31 := by decide
  have hlast : lastDigit (-2 ^ 31) = '(' := by decide
  obtain ⟨x, s', rfl⟩ := List.exists_cons_of_length_pos (Nat.zero_lt_of_lt hroom)
  have hdigits : digitLoop (x :: s') 0 (-2 ^ 31) = some ([some '('] ++ s', 1) := by
    have hstore : CBuf.store (x :: s') 0 '(' = some (some '(' :: s') := CBuf.store_middle [] x s' '('
    rw [digitLoop, hlast, hstore]
    rfl
  have hds : ['('] ≠ [] := by decide
  obtain ⟨post, hpost⟩ := itoa_of_digits (n := -2 ^ 31) (s := x :: s') hds (by decide) (by decide)
    (by simpa using hroom) (by rw [hneg]; exact hdigits)
  exact ⟨_, hpost, CBuf.string_append (by decide) post⟩

theorem not_canonical_itoa_min {s b : CBuf} {t : Text} (hb : itoa (-2 ^ 31) s = some b) (ht : b.string = some t) :
    ¬ Canonical (-2 ^ 31) t := by
  intro hcan
  have hlong : 11 ≤ t.length := hcan.length_le
  have hroom : 11 < s.length := by
    calc 11 ≤ t.length := hlong
      _ < b.length := CBuf.length_string_lt ht
      _ = s.length := length_itoa hb
  obtain ⟨b', hb', ht'⟩ := itoa_min (s := s) (by omega)
  rw [hb, Option.some.injEq] at hb'
  rw [← hb', ht, Option.some.injEq] at ht'
  rw [ht'] at hlong
  exact absurd hlong (by decide)

/-- **`itoa` writes every number but the smallest**, if the array has room for it and its
NUL: then the sign, the digits and the NUL are in the array, and the number is read back
from them. -/
theorem itoa_iff {n : ℤ} (h1 : -2 ^ 31 ≤ n) (h2 : n < 2 ^ 31) (s : CBuf) :
    (∃ b t, itoa n s = some b ∧ b.string = some t ∧ Canonical n t) ↔
      n ≠ -2 ^ 31 ∧ (decimalInt n).length < s.length := by
  constructor
  · rintro ⟨b, t, hb, ht, hcan⟩
    refine ⟨?_, ?_⟩
    · rintro rfl
      exact not_canonical_itoa_min hb ht hcan
    · calc (decimalInt n).length ≤ t.length := hcan.length_le
        _ < b.length := CBuf.length_string_lt ht
        _ = s.length := length_itoa hb
  · rintro ⟨hn, hroom⟩
    obtain ⟨b, hb, ht⟩ := itoa_eq (by omega) h2 hroom
    exact ⟨b, decimalInt n, hb, ht, canonical_decimalInt n⟩

theorem itoa_forty_two : ∃ b t, itoa (-42) (List.replicate 12 none) = some b ∧ b.string = some t ∧ Canonical (-42) t :=
  (itoa_iff (by decide) (by decide) (List.replicate 12 none)).mpr (by decide)

/-- `itoa(INT_MIN, s)` leaves `-(`. -/
theorem itoa_smallest : (∃ b, itoa (-2 ^ 31) (List.replicate 12 none) = some b ∧ b.string = some ['-', '(']) ∧
    ¬ ∃ b t, itoa (-2 ^ 31) (List.replicate 12 none) = some b ∧ b.string = some t ∧ Canonical (-2 ^ 31) t := by
  refine ⟨itoa_min (by decide), ?_⟩
  rintro ⟨b, t, hb, ht, hcan⟩
  exact not_canonical_itoa_min hb ht hcan

/-- **The port of every address that is found was written in full**: it fits
`port_string`, which has six bytes. -/
theorem itoa_port {hostname : Text} {port : ℤ} {a : Addr} (h : gethostaddrinfo hostname port = some a) {s : CBuf}
    (hs : s.length = 6) : ∃ b, itoa port s = some b ∧ b.string = some (decimal a.port) := by
  have hport : port = a.port := by
    unfold gethostaddrinfo at h
    split_ifs at h with hok
    obtain rfl := Option.some.inj h
    exact (Int.toNat_of_nonneg hok.2.1).symm
  have hle := a.port_le
  have hlen := length_decimal_port a
  have hwritten := itoa_eq (n := a.port) (s := s) (by omega) (by omega) (by rw [decimalInt_natCast]; omega)
  rw [hport]
  rwa [decimalInt_natCast] at hwritten

end Potato
end Csc501

/-
# Paths

`get_dirs` (`hw4/ramdisk.c`) cuts a path at its slashes: the pieces behind the
first slash, an empty one for each slash that is followed by a slash or by
nothing. For an absolute path that is `List.splitOn` of the rest
(`getDirs_absolute`), and for the path of a list of names it is that list
(`getDirs_pathText`).

Key definitions: `getDirs`, `pathText`.
Key theorems: `getDirs_absolute`, `getDirs_pathText`.
-/
import Csc501.Lib.CText

namespace Csc501
namespace Ramdisk

open Lib

/-- `root->name`, which is never assigned again. -/
def rootName : Text := "/".toList

/-- `ends_with`, of a text that is at least as long. -/
def endsWith (string compare : Text) : Bool := compare.isSuffixOf string

/-- `valid_path`. -/
def validPath (path : Text) : Bool := !(path = rootName || endsWith path rootName)

/-- The variables of the loop of `get_dirs`; `names` are the entries of
`file_names` assigned so far. -/
structure Split where
  start : ℕ
  count : ℤ
  names : List Text

/-- The characters of `path` from `i` up to `j`. -/
def slice (path : Text) (i j : ℕ) : Text := (path.take j).drop i

/-- The body of the loop, for the index `i`. -/
def splitStep (path : Text) (s : Split) (i : ℕ) : Split :=
  if path[i]? = some '/' then
    if s.count + 1 = 0 then { s with start := i, count := 0 }
    else ⟨i, s.count + 1, s.names ++ [slice path (s.start + 1) i]⟩
  else s

/-- The loop of `get_dirs`. -/
def splitLoop (path : Text) (n : ℕ) : Split := (List.range n).foldl (splitStep path) ⟨0, -1, []⟩

/-- `get_dirs`: the entries of `file_names`, and `count`, the index of the last
one. A path without a slash is stored in front of the array. -/
def getDirs (path : Text) : Option (List Text × ℕ) :=
  let s := splitLoop path path.length
  if s.count < 0 then none
  else some (s.names ++ [slice path (s.start + 1) path.length], s.count.toNat)

/-! ### What it returns -/

/-- One more character that is no delimiter goes to the last piece. -/
theorem splitOn_concat {d c : Char} (hc : c ≠ d) {s : Text} {ps : List Text} {p : Text}
    (h : s.splitOn d = ps ++ [p]) : (s ++ [c]).splitOn d = ps ++ [p ++ [c]] := by
  rcases exists_last_delim d s with hs | ⟨u, w, rfl, hw⟩
  · have hsc : d ∉ s ++ [c] := by simp [hs, Ne.symm hc]
    rw [List.splitOn_eq_singleton hs] at h
    have hnil : [] ++ [s] = ps ++ [p] := h
    obtain ⟨rfl, hp⟩ := List.append_inj' hnil rfl
    obtain rfl : s = p := (List.cons.inj hp).1
    rw [List.splitOn_eq_singleton hsc]
    rfl
  · have hwc : d ∉ w ++ [c] := by simp [hw, Ne.symm hc]
    rw [List.splitOn_append_cons_self, List.splitOn_eq_singleton hw] at h
    obtain ⟨rfl, hp⟩ := List.append_inj' h rfl
    obtain rfl : w = p := (List.cons.inj hp).1
    rw [List.append_assoc, List.cons_append, List.splitOn_append_cons_self, List.splitOn_eq_singleton hwc]

theorem slice_succ {path : Text} {i j : ℕ} {c : Char} (hj : path[j]? = some c) (hij : i ≤ j) :
    slice path i (j + 1) = slice path i j ++ [c] := by
  obtain ⟨hlt, -⟩ := List.getElem?_eq_some_iff.mp hj
  rw [slice, List.take_add_one, hj, List.drop_append_of_le_length (by simp; omega)]
  rfl

/-- The pieces in front of index `n`, the last of them not yet assigned. -/
theorem splitLoop_absolute (p : Text) : ∀ n, n < ('/' :: p).length →
    let s := splitLoop ('/' :: p) (n + 1)
    s.start ≤ n ∧ s.count = s.names.length ∧
      s.names ++ [slice ('/' :: p) (s.start + 1) (n + 1)] = (slice ('/' :: p) 1 (n + 1)).splitOn '/'
  | 0, _ => by
    refine ⟨le_rfl, rfl, ?_⟩
    simp [splitLoop, splitStep, slice]
  | n + 1, hn => by
    obtain ⟨hstart, hcount, hpieces⟩ := splitLoop_absolute p n (by omega)
    set s := splitLoop ('/' :: p) (n + 1) with hs
    have hstep : splitLoop ('/' :: p) (n + 1 + 1) = splitStep ('/' :: p) s (n + 1) := by
      rw [splitLoop, List.range_succ, List.foldl_append, hs]
      rfl
    obtain ⟨c, hc⟩ : ∃ c, ('/' :: p)[n + 1]? = some c := ⟨_, List.getElem?_eq_getElem hn⟩
    rw [hstep]
    by_cases hslash : c = '/'
    · -- a piece ends here
      subst hslash
      have hcond : ¬ s.count + 1 = 0 := by omega
      simp only [splitStep, hc, if_true, if_neg hcond]
      refine ⟨by omega, by simp [hcount], ?_⟩
      have hall : slice ('/' :: p) 1 (n + 1 + 1) = slice ('/' :: p) 1 (n + 1) ++ ['/'] := slice_succ hc (by omega)
      rw [hall, List.splitOn_append_cons_self, ← hpieces]
      simp [slice]
    · have hcond : ¬ ('/' :: p)[n + 1]? = some '/' := by simp [hc, hslash]
      rw [splitStep, if_neg hcond]
      refine ⟨by omega, hcount, ?_⟩
      rw [slice_succ hc (by omega), slice_succ hc (by omega)]
      exact (splitOn_concat hslash hpieces.symm).symm

/-- **An absolute path is cut at its slashes.** -/
theorem getDirs_absolute (p : Text) :
    getDirs ('/' :: p) = some (p.splitOn '/', (p.splitOn '/').length - 1) := by
  obtain ⟨-, hcount, hpieces⟩ := splitLoop_absolute p p.length (by simp)
  have hall : slice ('/' :: p) 1 (p.length + 1) = p := by simp [slice]
  rw [hall] at hpieces
  have hlen := congrArg List.length hpieces
  rw [List.length_append, List.length_singleton] at hlen
  unfold getDirs
  simp only [List.length_cons]
  rw [if_neg (by omega), hpieces, hcount, ← hlen]
  simp

/-! ### The path of some names -/

/-- A name of a file. -/
def IsName (n : Text) : Prop := n ≠ [] ∧ '/' ∉ n

instance (n : Text) : Decidable (IsName n) := inferInstanceAs (Decidable (_ ∧ _))

/-- The normalised absolute path with the components `cs`. -/
def pathText (cs : List Text) : Text := '/' :: ['/'].intercalate cs

theorem splitOn_intercalate_names {cs : List Text} (hne : cs ≠ []) (h : ∀ c ∈ cs, IsName c) :
    (['/'].intercalate cs).splitOn '/' = cs := List.splitOn_intercalate '/' (fun c hc => (h c hc).2) hne

theorem getDirs_pathText {cs : List Text} (hne : cs ≠ []) (h : ∀ c ∈ cs, IsName c) :
    getDirs (pathText cs) = some (cs, cs.length - 1) := by
  rw [pathText, getDirs_absolute, splitOn_intercalate_names hne h]

theorem getDirs_root : getDirs rootName = some ([[]], 0) := by decide

/-- The path of some names is neither the root's nor ends in a slash. -/
theorem pathText_ne_root {cs : List Text} (hne : cs ≠ []) (h : ∀ c ∈ cs, IsName c) : pathText cs ≠ rootName := by
  intro heq
  have h1 := getDirs_pathText hne h
  rw [heq, getDirs_root] at h1
  obtain ⟨rfl, -⟩ := Prod.mk.inj (Option.some.inj h1)
  exact (h [] (by simp)).1 rfl

theorem endsWith_pathText {cs : List Text} (hne : cs ≠ []) (h : ∀ c ∈ cs, IsName c) :
    endsWith (pathText cs) rootName = false := by
  by_contra hend
  have hsuf : ['/'] <:+ pathText cs := by simpa [endsWith, rootName] using hend
  have hcs := splitOn_intercalate_names hne h
  -- the piece behind the last slash would be empty
  have hempty : [] ∈ cs := by
    rcases List.eq_nil_or_concat (['/'].intercalate cs) with hnil | ⟨u, c, hu⟩
    · rw [hnil] at hcs
      rw [← hcs]
      simp
    · rw [pathText, hu, List.concat_eq_append, ← List.cons_append] at hsuf
      obtain rfl : '/' = c := by simpa using hsuf
      rw [hu, List.concat_eq_append, List.splitOn_append_cons_self] at hcs
      rw [← hcs]
      simp
  exact (h [] hempty).1 rfl

end Ramdisk
end Csc501

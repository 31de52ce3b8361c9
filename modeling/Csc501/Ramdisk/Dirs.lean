/-
# `get_dirs` in memory

`get_dirs` counts the slashes of a path, allocates an array of one entry more, and in a
second pass over the path stores the pieces between the slashes, each a string in an
allocation of its own. Here it is with these arrays: a store outside of one, or a copy
that is longer than its allocation, is `none`.

Step by step it does what `getDirs` does with lists (`dirsLoop_split`), so on an
absolute path it ends with the pieces, each ended by a NUL, and no store is outside of
its array (`getDirsMem_split`). The `int`s are unbounded here; none is ever larger than
the length of the path, so this is about paths shorter than 2^31.

Key definitions: `countOccurences`, `copyPiece`, `storeName`, `dirsStep`, `getDirsMem`.
Key theorems: `countOccurences_eq`, `copyPiece_eq`, `dirsLoop_split`, `getDirsMem_split`.
-/
import Csc501.Lib.CBuf
import Csc501.Ramdisk.Path

namespace Csc501
namespace Ramdisk

open Lib

/-! ### The number of slashes -/

/-- The loop of `count_occurences`: at the character `s[i]` either the index or the
pointer goes on. -/
def countLoop (c : Char) (s : Text) (i : ℕ) : ℕ :=
  match h : s[i]? with
  | none => i
  | some x =>
    if x = '\x00' then i
    else if x = c then countLoop c s (i + 1)
    else countLoop c s.tail i
  termination_by s.length - i
  decreasing_by
    · have := (List.getElem?_eq_some_iff.mp h).1
      omega
    · have := (List.getElem?_eq_some_iff.mp h).1
      rw [List.length_tail]
      omega

/-- `count_occurences`. -/
def countOccurences (c : Char) (s : Text) : ℕ := countLoop c s 0

theorem countLoop_eq (c : Char) {s : Text} (hs : '\x00' ∉ s) (i : ℕ) : countLoop c s i = i + (s.drop i).count c := by
  fun_induction countLoop c s i with
  | case1 s i h =>
    rw [List.drop_of_length_le (List.getElem?_eq_none_iff.mp h)]
    rfl
  | case2 s i h => exact absurd (List.mem_of_getElem? h) hs
  | case3 s i h hx ih =>
    obtain ⟨hi, hget⟩ := List.getElem?_eq_some_iff.mp h
    rw [ih hs, List.drop_eq_getElem_cons hi, hget, List.count_cons_self]
    omega
  | case4 s i x h hx hc ih =>
    obtain ⟨hi, hget⟩ := List.getElem?_eq_some_iff.mp h
    have htail : '\x00' ∉ s.tail := fun hm => hs (List.mem_of_mem_tail hm)
    rw [ih htail, List.drop_tail, List.drop_eq_getElem_cons hi, hget, List.count_cons_of_ne hc]

/-- It is the number of occurrences. -/
theorem countOccurences_eq (c : Char) {s : Text} (hs : '\x00' ∉ s) : countOccurences c s = s.count c := by
  rw [countOccurences, countLoop_eq c hs, List.drop_zero, Nat.zero_add]

/-! ### The pieces -/

/-- The piece of a path behind the slash at `start` and in front of `stop`, in an
allocation of its own. -/
def copyPiece (path : Text) (start stop : ℤ) : Option CBuf := do
  let piece ← CBuf.calloc (stop - start)
  piece.strncpy (path.drop (start + 1).toNat) (stop - start - 1)

/-- A store into `file_names`. -/
def storeName (fileNames : List (Option CBuf)) (k : ℤ) (piece : CBuf) : Option (List (Option CBuf)) :=
  if 0 ≤ k ∧ k < fileNames.length then some (fileNames.set k.toNat (some piece)) else none

/-- The variables of the loop. -/
structure DirsLoop where
  start : ℤ
  stop : ℤ
  count : ℤ
  fileNames : List (Option CBuf)

/-- The body of the loop, for the index `i`. -/
def dirsStep (path : Text) (s : DirsLoop) (i : ℕ) : Option DirsLoop :=
  if path[i]? = some '/' then
    let s := { s with stop := i, count := s.count + 1 }
    if s.count = 0 then some { s with start := s.stop }
    else do
      let piece ← copyPiece path s.start s.stop
      let fileNames ← storeName s.fileNames (s.count - 1) piece
      some { s with start := s.stop, fileNames := fileNames }
  else some s

/-- The loop, up to the index `n`. -/
def dirsLoop (path : Text) (n : ℕ) : Option DirsLoop :=
  (List.range n).foldlM (dirsStep path) ⟨0, 0, -1, List.replicate (countOccurences '/' path + 1) none⟩

/-- `get_dirs`: the array `file_names`, and `*ret_count`. -/
def getDirsMem (path : Text) : Option (List (Option CBuf) × ℤ) := do
  let s ← dirsLoop path path.length
  let piece ← copyPiece path s.start path.length
  let fileNames ← storeName s.fileNames s.count piece
  some (fileNames, s.count)

/-- A piece in memory. -/
def pieceBuf (piece : Text) : CBuf := piece.map some ++ [some '\x00']

/-- The array with the pieces stored so far, `n` entries in all. -/
def namesArray (pieces : List Text) (n : ℕ) : List (Option CBuf) :=
  pieces.map (some ∘ pieceBuf) ++ List.replicate (n - pieces.length) none

theorem length_namesArray {pieces : List Text} {n : ℕ} (h : pieces.length ≤ n) : (namesArray pieces n).length = n := by
  rw [namesArray, List.length_append, List.length_map, List.length_replicate]
  omega

theorem copyPiece_eq {path : Text} (hp : '\x00' ∉ path) {start stop : ℕ} (h1 : start < stop) (h2 : stop ≤ path.length) :
    copyPiece path start stop = some (pieceBuf (slice path (start + 1) stop)) := by
  have hnul : '\x00' ∉ path.drop (start + 1) := fun hm => hp (List.mem_of_mem_drop hm)
  obtain ⟨b, hb, hcopy⟩ := CBuf.strncpy_calloc (n := stop - start - 1) (by rw [List.length_drop]; omega) hnul
  have hsize : (stop : ℤ) - start = (stop - start - 1 : ℕ) + 1 := by omega
  have hslice : slice path (start + 1) stop = (path.drop (start + 1)).take (stop - start - 1) := by
    rw [slice, List.drop_take, Nat.sub_sub]
  have hdrop : ((start : ℤ) + 1).toNat = start + 1 := by omega
  rw [copyPiece, hsize, hb, hdrop, add_sub_cancel_right]
  simp only [Option.bind_eq_bind, Option.bind_some]
  rw [hcopy, pieceBuf, hslice]

/-- The next entry of the array. -/
theorem storeName_next {pieces : List Text} {n : ℕ} (h : pieces.length < n) (piece : Text) :
    storeName (namesArray pieces n) pieces.length (pieceBuf piece) = some (namesArray (pieces ++ [piece]) n) := by
  have hin : (0 : ℤ) ≤ pieces.length ∧ (pieces.length : ℤ) < (namesArray pieces n).length := by
    rw [length_namesArray h.le]
    omega
  obtain ⟨k, hk⟩ : ∃ k, n - pieces.length = k + 1 := ⟨n - pieces.length - 1, by omega⟩
  have hk' : n - (pieces ++ [piece]).length = k := by
    rw [List.length_append, List.length_singleton]
    omega
  rw [storeName, if_pos hin, Int.toNat_natCast, namesArray, namesArray, hk, hk', List.replicate_succ]
  rw [List.set_append_right _ _ (by rw [List.length_map]), List.length_map, Nat.sub_self, List.set_cons_zero]
  simp

/-! ### The loop -/

theorem splitLoop_succ (path : Text) (n : ℕ) : splitLoop path (n + 1) = splitStep path (splitLoop path n) n := by
  rw [splitLoop, List.range_succ, List.foldl_append]
  rfl

theorem dirsLoop_succ (path : Text) (n : ℕ) : dirsLoop path (n + 1) = (dirsLoop path n).bind (dirsStep path · n) := by
  rw [dirsLoop, List.range_succ, List.foldlM_append]
  simp only [List.foldlM_cons, List.foldlM_nil, bind_pure]
  rfl

/-- What the list version keeps track of: the slashes so far, the last of them, and one
piece less. -/
theorem splitLoop_count (path : Text) : ∀ n, n ≤ path.length →
    let s := splitLoop path n
    s.count = (path.take n).count '/' - 1 ∧ s.names.length = s.count.toNat ∧ (0 ≤ s.count → s.start < n)
  | 0, _ => by simp [splitLoop]
  | n + 1, hn => by
    obtain ⟨h1, h2, h3⟩ := splitLoop_count path n (by omega)
    obtain ⟨c, hc⟩ : ∃ c, path[n]? = some c := ⟨_, List.getElem?_eq_getElem hn⟩
    have htake : path.take (n + 1) = path.take n ++ [c] := by
      rw [List.take_add_one, hc]
      rfl
    rw [splitLoop_succ, htake, List.count_append]
    generalize splitLoop path n = s at h1 h2 h3
    by_cases hslash : c = '/'
    · subst hslash
      simp only [splitStep, hc, if_true, List.count_singleton_self]
      split_ifs with hfirst
      · exact ⟨by simp only; omega, by simp only; omega, fun _ => Nat.lt_succ_self n⟩
      · refine ⟨by simp only; omega, ?_, fun _ => Nat.lt_succ_self n⟩
        simp only [List.length_append, List.length_singleton, h2]
        omega
    · have hno : ¬ path[n]? = some '/' := by simp [hc, hslash]
      rw [splitStep, if_neg hno, List.count_singleton, if_neg (by simpa using hslash)]
      exact ⟨by omega, h2, fun h => (h3 h).trans (Nat.lt_succ_self n)⟩

/-- **The loop stores the pieces.** As long as there is a slash in front of every index it
looks at, no store is outside of the array. -/
theorem dirsLoop_split {path : Text} (hp : '\x00' ∉ path) : ∀ n, n ≤ path.length →
    ∃ stop, dirsLoop path n = some ⟨(splitLoop path n).start, stop, (splitLoop path n).count,
      namesArray (splitLoop path n).names (path.count '/' + 1)⟩
  | 0, _ => by
    refine ⟨0, ?_⟩
    rw [dirsLoop, countOccurences_eq '/' hp]
    rfl
  | n + 1, hn => by
    obtain ⟨stop, hloop⟩ := dirsLoop_split hp n (by omega)
    obtain ⟨h1, h2, h3⟩ := splitLoop_count path n (by omega)
    rw [dirsLoop_succ, hloop, splitLoop_succ, Option.bind_some]
    -- the slashes in front of the index are not all there are
    have hle : (path.take n).count '/' ≤ path.count '/' := (List.take_sublist n path).count_le '/'
    generalize splitLoop path n = s at h1 h2 h3
    by_cases hslash : path[n]? = some '/'
    · simp only [dirsStep, splitStep, if_pos hslash]
      by_cases hfirst : s.count + 1 = 0
      · rw [if_pos hfirst, if_pos hfirst, hfirst]
        exact ⟨n, rfl⟩
      · rw [if_neg hfirst, if_neg hfirst]
        have hindex : s.count + 1 - 1 = (s.names.length : ℤ) := by omega
        simp only [copyPiece_eq hp (h3 (by omega)) (show n ≤ path.length by omega), hindex,
          storeName_next (show s.names.length < path.count '/' + 1 by omega), Option.bind_eq_bind, Option.bind_some]
        exact ⟨n, rfl⟩
    · rw [dirsStep, splitStep, if_neg hslash, if_neg hslash]
      exact ⟨stop, rfl⟩

/-- What the list version ends with on an absolute path. -/
theorem splitLoop_whole (p : Text) :
    let s := splitLoop ('/' :: p) (p.length + 1)
    s.count = p.count '/' ∧ s.names.length = p.count '/' ∧ s.start < p.length + 1 ∧
      s.names ++ [slice ('/' :: p) (s.start + 1) (p.length + 1)] = p.splitOn '/' := by
  obtain ⟨h1, h2, h3⟩ := splitLoop_count ('/' :: p) (p.length + 1) le_rfl
  obtain ⟨-, -, hpieces⟩ := splitLoop_absolute p p.length (by simp)
  have hall : slice ('/' :: p) 1 (p.length + 1) = p := by simp [slice]
  have htake : ('/' :: p).take (p.length + 1) = '/' :: p := List.take_of_length_le le_rfl
  rw [hall] at hpieces
  rw [htake, List.count_cons_self] at h1
  exact ⟨by omega, by omega, h3 (by omega), hpieces⟩

theorem length_splitOn_slash (p : Text) : (p.splitOn '/').length = p.count '/' + 1 := by
  obtain ⟨-, hnames, -, hpieces⟩ := splitLoop_whole p
  rw [← hpieces, List.length_append, hnames, List.length_singleton]

/-- **`get_dirs` on an absolute path.** The entries of the array are the pieces of the
path, cut at its slashes, each a string in its own allocation; the last entry is not
used, and every store was inside. -/
theorem getDirsMem_split {p : Text} (hp : '\x00' ∉ p) :
    getDirsMem ('/' :: p) = some ((p.splitOn '/').map (some ∘ pieceBuf) ++ [none], (p.count '/' : ℤ)) := by
  have hpath : '\x00' ∉ '/' :: p := by simpa using hp
  have hlen := length_splitOn_slash p
  obtain ⟨stop, hloop⟩ := dirsLoop_split hpath (p.length + 1) le_rfl
  obtain ⟨hcount, hnames, hstart, hpieces⟩ := splitLoop_whole p
  rw [getDirsMem, List.length_cons, hloop, List.count_cons_self]
  generalize splitLoop ('/' :: p) (p.length + 1) = s at hcount hnames hstart hpieces
  have hlast := copyPiece_eq hpath hstart (show p.length + 1 ≤ ('/' :: p).length from le_rfl)
  simp only [Option.bind_eq_bind, Option.bind_some, hlast]
  rw [hcount, ← hnames, storeName_next (by omega), hpieces, Option.bind_some]
  have hrest : s.names.length + 1 + 1 - (p.splitOn '/').length = 1 := by omega
  rw [namesArray, hrest]
  rfl

theorem mem_of_mem_intercalate {sep : Text} {c : Char} : ∀ {ps : List Text} {piece : Text}, piece ∈ ps → c ∈ piece →
    c ∈ sep.intercalate ps
  | [], _, h, _ => absurd h List.not_mem_nil
  | [p], piece, h, hc => by
    obtain rfl := List.mem_singleton.mp h
    simpa using hc
  | p :: q :: ps, piece, h, hc => by
    rw [List.intercalate_cons_cons, List.mem_append, List.mem_append]
    rcases List.mem_cons.mp h with rfl | h
    · exact Or.inl (Or.inl hc)
    · exact Or.inr (mem_of_mem_intercalate h hc)

theorem mem_of_mem_splitOn {d c : Char} {s piece : Text} (h : piece ∈ s.splitOn d) (hc : c ∈ piece) : c ∈ s := by
  have hs : [d].intercalate (s.splitOn d) = s := List.intercalate_splitOn d
  rw [← hs]
  exact mem_of_mem_intercalate h hc

/-- It is `getDirs`, with the pieces in memory. -/
theorem getDirsMem_getDirs {p : Text} (hp : '\x00' ∉ p) :
    getDirsMem ('/' :: p) = (getDirs ('/' :: p)).map fun r => (r.1.map (some ∘ pieceBuf) ++ [none], (r.2 : ℤ)) := by
  have hlen := length_splitOn_slash p
  have hlast : (p.splitOn '/').length - 1 = p.count '/' := by omega
  rw [getDirsMem_split hp, getDirs_absolute, Option.map_some, hlast]

/-- **Path splitting.** On every absolute path, shorter than 2^31, `get_dirs` returns in `file_names[0..count]`
the pieces between the slashes, the empty ones too, each a string that ends at the end of
its allocation, where `count` is one less than the number of slashes. The array has one
entry more than `count_occurences` says there are slashes, which is right, and no store is
outside of it: that would be `none`. -/
theorem getDirs_in_memory {p : Text} (hp : '\x00' ∉ p) :
    countOccurences '/' ('/' :: p) = ('/' :: p).count '/' ∧
    ∃ (fileNames : List (Option CBuf)) (count : ℤ), getDirsMem ('/' :: p) = some (fileNames, count) ∧
      count = (('/' :: p).count '/' : ℤ) - 1 ∧ fileNames.length = countOccurences '/' ('/' :: p) + 1 ∧
      (p.splitOn '/').length = count.toNat + 1 ∧
      ∀ (k : ℕ) (piece : Text), (p.splitOn '/')[k]? = some piece → ∃ b : CBuf, fileNames[k]? = some (some b) ∧
        b.length = piece.length + 1 ∧ b.stringAt 0 = some piece := by
  have hpath : '\x00' ∉ '/' :: p := by simpa using hp
  have hlen := length_splitOn_slash p
  refine ⟨countOccurences_eq '/' hpath, _, _, getDirsMem_split hp, ?_, ?_, ?_, ?_⟩
  · rw [List.count_cons_self]
    omega
  · rw [countOccurences_eq '/' hpath, List.length_append, List.length_map, List.length_singleton, hlen,
      List.count_cons_self]
  · rw [hlen, Int.toNat_natCast]
  · intro k piece hk
    have hclean : '\x00' ∉ piece := fun hc => hp (mem_of_mem_splitOn (List.mem_of_getElem? hk) hc)
    refine ⟨pieceBuf piece, ?_, ?_, ?_⟩
    · rw [List.getElem?_append_left (by simpa using (List.getElem?_eq_some_iff.mp hk).1), List.getElem?_map, hk]
      rfl
    · simp [pieceBuf]
    · exact CBuf.stringAt_append hclean [] []

/-- Adjacent slashes and one at the end: four slashes, and of the four pieces the second
is empty. -/
theorem getDirs_in_memory_slashes : ∃ fileNames, getDirsMem "/a//b/".toList = some (fileNames, 3) ∧
    fileNames.length = 5 ∧ ∃ b : CBuf, fileNames[1]? = some (some b) ∧ b.stringAt 0 = some [] := by
  obtain ⟨hcount, fileNames, count, h, hc, hlen, -, hpieces⟩ := getDirs_in_memory (p := "a//b/".toList) (by decide)
  obtain rfl : count = 3 := by simpa using hc
  obtain ⟨b, hb, -, hstring⟩ := hpieces 1 [] (by decide)
  refine ⟨fileNames, h, ?_, b, hb, hstring⟩
  rw [hlen, hcount]
  decide

end Ramdisk
end Csc501

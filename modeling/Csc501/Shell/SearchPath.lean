/-
# The search for a file in `PATH`

`search_path` of `hw2/ush.c`, with the list of `hw2/list.c` it returns. All
candidates are put together in one array: the name of the file, with a slash in
front, is stored once behind room for all of `PATH`, and each segment of `PATH` is
copied to where it ends at the slash, over what is left of the segments before.

Which strings `access` allows is a parameter. `none` is a byte stored outside of
the array, a string read that was not stored, or a `NULL` list pushed to.

Key definitions: `makeNode`, `push`, `searchLoop`, `searchPath`, `resolve`.
Key theorems: `Ready.candidate`, `searchLoop_eq`, `searchPath_eq`.
-/
import Csc501.Lib.CBuf

namespace Csc501
namespace Shell

open Lib

/-! ### The list -/

/-- `make_node`; the list `NULL` is the empty one. -/
def makeNode (value : Text) : List Text := [value]

/-- `push`: the last node is found, and gets another one behind it. -/
def push : List Text → Text → Option (List Text)
  | [], _ => none
  | [x], value => some (x :: makeNode value)
  | x :: y :: l, value => (push (y :: l) value).map (x :: ·)

theorem push_eq : ∀ {l : List Text} (value : Text), l ≠ [] → push l value = some (l ++ [value])
  | [], _, h => absurd rfl h
  | [_], _, _ => rfl
  | x :: y :: l, value, _ => by
    rw [push, push_eq value (by simp)]
    rfl

/-! ### The search -/

/-- `PATH_MAX`. -/
def pathMax : ℕ := 4096

/-- What is searched if `PATH` is not set. -/
def defaultPath : Text := ":/bin:/usr/bin".toList

/-- The segment is copied in front of the slash at `name`: the array, and where
the string begins. -/
def candidate (name : ℤ) (segment : Text) (buf : CBuf) : Option (CBuf × ℤ) :=
  if segment = [] then some (buf, name + 1)
  else (buf.memcpy (name - segment.length) segment).map fun buf => (buf, name - segment.length)

/-- The string at `startp` is added to the list, if it is executable. -/
def check (access : Text → Bool) (startp : Text) (list : List Text) : Option (List Text) :=
  if access startp then if list = [] then some (makeNode startp) else push list startp else some list

/-- The loop of `search_path`, at the segment that begins `path`. -/
def searchLoop (access : Text → Bool) (name : ℤ) (path : Text) (buf : CBuf) (list : List Text) : Option (List Text) :=
  (candidate name (path.takeWhile (· ≠ ':')) buf).bind fun r =>
    (r.1.stringAt r.2).bind fun startp =>
      (check access startp list).bind fun list =>
        match _h : path.dropWhile (· ≠ ':') with
        | [] => some list
        | _ :: p => searchLoop access name p r.1 list
termination_by path.length
decreasing_by
  have hle := (List.dropWhile_suffix (· ≠ ':') (l := path)).length_le
  rw [_h, List.length_cons] at hle
  omega

/-- `search_path`, where `path` is the value of `PATH`. -/
def searchPath (access : Text → Bool) (path : Option Text) (file : Text) : Option (List Text) :=
  if file = [] then some []
  else if '/' ∈ file then some (makeNode file)
  else
    let path := path.getD defaultPath
    let buf : CBuf := List.replicate pathMax none
    (buf.memcpy (path.length + 1) (file ++ ['\x00'])).bind fun buf =>
      (buf.memcpy path.length ['/']).bind fun buf => searchLoop access path.length path buf []

/-! ### What is searched -/

/-- The file in a directory of `PATH`, an empty one being the current directory. -/
def resolve (file segment : Text) : Text := if segment = [] then file else segment ++ '/' :: file

/-- The slash, the name of the file and the final NUL stand at index `n`. -/
def Ready (file : Text) (n : ℕ) (buf : CBuf) : Prop :=
  ∃ pre post : CBuf, pre.length = n ∧ buf = pre ++ (('/' :: file).map some ++ some '\x00' :: post)

section Search

variable {access : Text → Bool} {file : Text} {n : ℕ} {buf : CBuf}

/-- **A candidate is put together** whatever was there before, and the name stays. -/
theorem Ready.candidate {segment : Text} (h : Ready file n buf) (hlen : segment.length ≤ n) (hfile : '\x00' ∉ file)
    (hseg : '\x00' ∉ segment) :
    ∃ buf' startp, Shell.candidate n segment buf = some (buf', startp) ∧
      buf'.stringAt startp = some (resolve file segment) ∧ Ready file n buf' := by
  obtain ⟨pre, post, hpre, rfl⟩ := h
  unfold Shell.candidate resolve
  split_ifs with hnil
  · refine ⟨_, _, rfl, ?_, pre, post, hpre, rfl⟩
    have hone : ((n : ℤ) + 1) = (pre ++ [some '/']).length := by
      rw [List.length_append, hpre]
      rfl
    rw [hone, List.map_cons, List.cons_append, List.append_cons]
    exact CBuf.stringAt_append hfile _ _
  · -- the segment takes the place of the last bytes in front of the slash
    have hsplit : pre = pre.take (n - segment.length) ++ pre.drop (n - segment.length) := (List.take_append_drop _ _).symm
    have htake : (pre.take (n - segment.length)).length = n - segment.length := by
      rw [List.length_take, hpre]
      omega
    have hdrop : (pre.drop (n - segment.length)).length = segment.length := by
      rw [List.length_drop, hpre]
      omega
    have hat : (n : ℤ) - segment.length = (pre.take (n - segment.length)).length := by
      rw [htake]
      omega
    have hcopy := CBuf.memcpy_middle (pre.take (n - segment.length)) (pre.drop (n - segment.length))
      (('/' :: file).map some ++ some '\x00' :: post) hdrop
    rw [← List.append_assoc, ← hsplit, ← hat] at hcopy
    rw [hcopy]
    refine ⟨_, _, rfl, ?_, pre.take (n - segment.length) ++ segment.map some, post, ?_, ?_⟩
    · rw [hat, ← List.append_assoc (segment.map some), ← List.map_append]
      apply CBuf.stringAt_append
      simp [hseg, hfile]
    · rw [List.length_append, htake, List.length_map]
      omega
    · rw [List.append_assoc]

theorem check_eq (access : Text → Bool) (startp : Text) (list : List Text) :
    check access startp list = some (list ++ [startp].filter access) := by
  unfold check
  split_ifs with h1 h2
  · simp [h2, h1, makeNode]
  · rw [push_eq startp h2]
    simp [h1]
  · simp [h1]

/-- The first segment, and what follows it. -/
theorem splitOn_segments (path : Text) :
    path.splitOn ':' = path.takeWhile (· ≠ ':') :: match path.dropWhile (· ≠ ':') with
      | [] => []
      | _ :: p => p.splitOn ':' := by
  have hpos : ∀ {w : Text}, ':' ∉ w → ∀ c ∈ w, (decide (c ≠ ':')) = true := by
    intro w hw c hc
    exact decide_eq_true fun h => hw (h ▸ hc)
  rcases exists_first_delim ':' path with h | ⟨w, p, rfl, h⟩
  · rw [List.splitOn_eq_singleton h, List.takeWhile_eq_self_iff.mpr (hpos h), List.dropWhile_eq_nil_iff.mpr (hpos h)]
  · rw [List.splitOn_append_cons_self, List.splitOn_eq_singleton h, List.takeWhile_append_of_pos (hpos h),
      List.dropWhile_append_of_pos (hpos h)]
    simp

/-- **The loop goes through the segments** of `PATH`, in order. -/
theorem searchLoop_eq (hfile : '\x00' ∉ file) (path : Text) (buf : CBuf) (list : List Text) (h : Ready file n buf)
    (hlen : path.length ≤ n) (hpath : '\x00' ∉ path) :
    searchLoop access n path buf list = some (list ++ ((path.splitOn ':').map (resolve file)).filter access) := by
  have hsub : path.takeWhile (· ≠ ':') <+: path := List.takeWhile_prefix _
  obtain ⟨buf', startp, hcand, hstr, hready⟩ := h.candidate (hsub.length_le.trans hlen) hfile
    (fun hm => hpath (hsub.subset hm))
  rw [searchLoop, hcand, Option.bind_some, hstr, Option.bind_some, check_eq, Option.bind_some, splitOn_segments]
  split
  · rename_i hnil
    rw [hnil]
    rfl
  · rename_i c p hp
    have hsuf : c :: p <:+ path := hp ▸ List.dropWhile_suffix _
    have hlt : p.length < path.length := Nat.lt_of_succ_le hsuf.length_le
    rw [searchLoop_eq hfile p buf' _ hready (by omega) (fun hm => hpath (hsuf.subset (List.mem_cons_of_mem _ hm))), hp]
    simp only [List.map_cons, List.append_assoc, ← List.filter_append, List.singleton_append]
termination_by path.length

end Search

/-- The name of the file, a slash in front of it, and room for all of `PATH`. -/
theorem ready_start {path file : Text} (h : path.length + file.length + 2 ≤ pathMax) :
    ∃ buf₁ buf₂, CBuf.memcpy (List.replicate pathMax none) (path.length + 1) (file ++ ['\x00']) = some buf₁ ∧
      buf₁.memcpy path.length ['/'] = some buf₂ ∧ Ready file path.length buf₂ := by
  obtain ⟨k, hk⟩ := Nat.exists_eq_add_of_le h
  have hroom : List.replicate pathMax (none : Option Char) =
      List.replicate (path.length + 1) none ++ (List.replicate (file.length + 1) none ++ List.replicate k none) := by
    rw [List.replicate_append_replicate, List.replicate_append_replicate, hk]
    congr 1
    omega
  have hname := CBuf.memcpy_middle (List.replicate (path.length + 1) none) (List.replicate (file.length + 1) none)
    (List.replicate k none) (show _ = (file ++ ['\x00']).length by simp)
  have hslash := CBuf.memcpy_middle (List.replicate path.length none) [none]
    ((file ++ ['\x00']).map some ++ List.replicate k none) (show _ = ['/'].length from rfl)
  rw [List.length_replicate] at hname hslash
  rw [← List.append_assoc, ← List.replicate_succ'] at hslash
  rw [hroom]
  refine ⟨_, _, by exact_mod_cast hname, hslash, List.replicate path.length none, List.replicate k none, by simp, ?_⟩
  simp

/-- **The search gives the executable files in the directories of `PATH`**, in
order and as often as they are there, and all it stores is in the array. -/
theorem searchPath_eq (access : Text → Bool) {path : Option Text} {file : Text} (hne : file ≠ []) (hslash : '/' ∉ file)
    (hfile : '\x00' ∉ file) (hpath : '\x00' ∉ path.getD defaultPath)
    (hlen : (path.getD defaultPath).length + file.length + 2 ≤ pathMax) :
    searchPath access path file =
      some ((((path.getD defaultPath).splitOn ':').map (resolve file)).filter access) := by
  obtain ⟨buf₁, buf₂, h1, h2, hready⟩ := ready_start hlen
  rw [searchPath, if_neg hne, if_neg hslash]
  dsimp only
  rw [h1, Option.bind_some, h2, Option.bind_some]
  exact searchLoop_eq hfile _ _ [] hready le_rfl hpath

/-- A shorter segment behind a longer one, two empty ones, and one directory
where the file is not executable. -/
theorem searchPath_eq_ls : '/' ∉ "ls".toList ∧ '\x00' ∉ "/usr/bin:/b::/c:".toList ∧
    searchPath (· ≠ "/c/ls".toList) (some "/usr/bin:/b::/c:".toList) "ls".toList =
      some ["/usr/bin/ls".toList, "/b/ls".toList, "ls".toList, "ls".toList] := by
  refine ⟨by decide, by decide, ?_⟩
  rw [searchPath_eq _ (by decide) (by decide) (by decide) (by decide) (by decide)]
  decide

end Shell
end Csc501

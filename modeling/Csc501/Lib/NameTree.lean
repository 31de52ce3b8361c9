/-
# Trees of names

What a file system is to its users: the paths that exist, as lists of names,
each with a kind, in the order in which they were made. The children of a path
are the last names of the paths just below it, in that order. The root is not
listed. Nothing is said about which paths may be added or removed: that is for
the system that uses the tree.

Key definitions: `NameTree`, `NameTree.children`.
Key theorems: `mem_children`, `lookup_add`, `lookup_remove`, `children_add`, `children_remove`.
-/
import Mathlib.Data.List.Basic

namespace Csc501
namespace Lib

/-- The paths that exist, with their kinds, in the order of their creation. -/
structure NameTree (α κ : Type*) where
  entries : List (List α × κ)

namespace NameTree

variable {α κ : Type*} [DecidableEq α]

def empty : NameTree α κ := ⟨[]⟩

/-- The kind of a path, if it exists. -/
def lookup (t : NameTree α κ) (cs : List α) : Option κ := (t.entries.find? fun e => e.1 = cs).map Prod.snd

/-- The names in `cs`, in the order of their creation. -/
def children (t : NameTree α κ) (cs : List α) : List α :=
  t.entries.filterMap fun e => if e.1.dropLast = cs then e.1.getLast? else none

def add (t : NameTree α κ) (cs : List α) (k : κ) : NameTree α κ := ⟨t.entries ++ [(cs, k)]⟩

def remove (t : NameTree α κ) (cs : List α) : NameTree α κ := ⟨t.entries.filter fun e => e.1 ≠ cs⟩

variable {t : NameTree α κ} {cs cs' : List α} {n : α} {k : κ}

omit [DecidableEq α] in
/-- What is to the left of the last name, and the last name. -/
theorem child_iff (e : List α) : (e.dropLast = cs ∧ e.getLast? = some n) ↔ e = cs ++ [n] := by
  constructor
  · rintro ⟨rfl, h⟩
    exact (List.dropLast_append_getLast? n h).symm
  · rintro rfl
    simp

theorem lookup_eq_none_iff : t.lookup cs = none ↔ ∀ e ∈ t.entries, e.1 ≠ cs := by
  simp [lookup]

/-- **A name is a child exactly if its path exists.** -/
theorem mem_children : n ∈ t.children cs ↔ t.lookup (cs ++ [n]) ≠ none := by
  have hmem : n ∈ t.children cs ↔ ∃ e ∈ t.entries, e.1 = cs ++ [n] := by
    unfold children
    rw [List.mem_filterMap]
    refine exists_congr fun e => and_congr_right fun _ => ?_
    rw [← child_iff]
    split_ifs with h <;> simp [h]
  rw [hmem, Ne, lookup_eq_none_iff]
  push Not
  rfl

theorem lookup_add (h : t.lookup cs = none) :
    (t.add cs k).lookup cs' = if cs' = cs then some k else t.lookup cs' := by
  unfold lookup add at *
  rw [List.find?_append]
  by_cases hcs : cs' = cs
  · subst hcs
    rw [Option.map_eq_none_iff] at h
    simp [h]
  · have hne : ¬ cs = cs' := fun h => hcs h.symm
    simp [hcs, hne]

theorem lookup_remove : (t.remove cs).lookup cs' = if cs' = cs then none else t.lookup cs' := by
  by_cases hcs : cs' = cs
  · rw [if_pos hcs, hcs, lookup_eq_none_iff]
    intro e he
    simpa using (List.mem_filter.mp he).2
  · rw [if_neg hcs]
    unfold lookup remove
    rw [List.find?_filter]
    congr 2
    funext e
    by_cases he : e.1 = cs'
    · simp [he, hcs]
    · simp [he]

theorem children_add : (t.add (cs ++ [n]) k).children cs' =
    if cs' = cs then t.children cs' ++ [n] else t.children cs' := by
  unfold children add
  rw [List.filterMap_append]
  by_cases hcs : cs' = cs
  · simp [hcs]
  · have hne : ¬ cs = cs' := fun h => hcs h.symm
    simp [hcs, hne]

theorem children_remove : (t.remove (cs ++ [n])).children cs' =
    if cs' = cs then (t.children cs').filter (· ≠ n) else t.children cs' := by
  unfold children remove
  rw [List.filterMap_filter]
  by_cases hcs : cs' = cs
  · subst hcs
    rw [if_pos rfl, List.filter_filterMap]
    congr 1
    funext e
    have hiff : (e.1.dropLast = cs' ∧ e.1.getLast? = some n) ↔ e.1 = cs' ++ [n] := child_iff e.1
    by_cases he : e.1 = cs' ++ [n]
    · simp [he, Option.filter]
    · by_cases hd : e.1.dropLast = cs'
      · have hlast : ¬ e.1.getLast? = some n := fun h => he (hiff.mp ⟨hd, h⟩)
        cases hl : e.1.getLast? with
        | none => simp [hd, he]
        | some x =>
          have hx : ¬ x = n := fun h => hlast (by rw [hl, h])
          simp [hd, he, hx, Option.filter]
      · simp [hd, he]
  · rw [if_neg hcs]
    congr 1
    funext e
    by_cases he : e.1 = cs ++ [n]
    · have hne : ¬ cs = cs' := fun h => hcs h.symm
      simp [he, hne]
    · simp [he]

end NameTree

end Lib
end Csc501

/-
# Forests, level by level

Finite trees whose nodes have any number of children, in order. The level below some
trees is their children, those of the first tree first, and a forest is listed level by
level (`levelOrder`) until there is none. Every node of the forest is listed once
(`levelOrder_perm`): `nodes` lists them tree by tree.

Key definitions: `RoseTree`, `below`, `level`, `levelOrder`, `nodes`.
Key theorems: `level_depth`, `levelOrder_perm`.
-/
import Mathlib.Data.List.Basic
import Mathlib.Data.List.Perm.Basic
import Mathlib.Order.Lattice.Nat

namespace Csc501
namespace Lib

/-- A finite tree. -/
inductive RoseTree (α : Type*)
  | node (val : α) (children : List (RoseTree α))

/-- What is just below the root. -/
def RoseTree.children {α : Type*} : RoseTree α → List (RoseTree α)
  | .node _ ts => ts

section Forests

variable {α : Type*}

/-- The level below some trees. -/
def below (ts : List (RoseTree α)) : List (RoseTree α) := ts.flatMap RoseTree.children

/-- The `n`-th level of a forest. -/
def level (ts : List (RoseTree α)) : ℕ → List (RoseTree α)
  | 0 => ts
  | n + 1 => level (below ts) n

mutual

/-- How many levels a tree has. -/
def RoseTree.height : RoseTree α → ℕ
  | .node _ ts => depth ts + 1

/-- How many levels a forest has. -/
def depth : List (RoseTree α) → ℕ
  | [] => 0
  | t :: ts => max t.height (depth ts)

end

/-- A forest, level by level. -/
def levelOrder (ts : List (RoseTree α)) : List (RoseTree α) := (List.range (depth ts)).flatMap (level ts)

mutual

/-- The nodes of a tree, each as the tree below it. -/
def RoseTree.nodes : RoseTree α → List (RoseTree α)
  | .node v ts => .node v ts :: nodes ts

/-- The nodes of a forest, tree by tree. -/
def nodes : List (RoseTree α) → List (RoseTree α)
  | [] => []
  | t :: ts => t.nodes ++ nodes ts

end

theorem RoseTree.height_eq (t : RoseTree α) : t.height = depth t.children + 1 := by
  cases t
  rw [RoseTree.height, RoseTree.children]

theorem RoseTree.nodes_eq (t : RoseTree α) : t.nodes = t :: Lib.nodes t.children := by
  cases t
  rw [RoseTree.nodes, RoseTree.children]

@[simp] theorem below_cons (t : RoseTree α) (ts : List (RoseTree α)) : below (t :: ts) = t.children ++ below ts := rfl

theorem depth_append (ts us : List (RoseTree α)) : depth (ts ++ us) = max (depth ts) (depth us) := by
  induction ts with
  | nil => simp [depth]
  | cons t ts ih => simp only [List.cons_append, depth, ih, max_assoc]

theorem nodes_append (ts us : List (RoseTree α)) : nodes (ts ++ us) = nodes ts ++ nodes us := by
  induction ts with
  | nil => simp [nodes]
  | cons t ts ih => simp only [List.cons_append, nodes, ih, List.append_assoc]

/-- Each level is one less deep. -/
theorem depth_below (ts : List (RoseTree α)) : depth (below ts) = depth ts - 1 := by
  induction ts with
  | nil => simp [below, depth]
  | cons t ts ih =>
    rw [below_cons, depth_append, ih, depth, RoseTree.height_eq]
    omega

/-- The levels end. -/
theorem level_depth {ts : List (RoseTree α)} {n : ℕ} (h : depth ts ≤ n) : level ts n = [] := by
  induction n generalizing ts with
  | zero =>
    cases ts with
    | nil => rfl
    | cons t ts =>
      rw [depth, RoseTree.height_eq] at h
      omega
  | succ n ih =>
    rw [level]
    apply ih
    rw [depth_below]
    omega

/-- The nodes of a forest are the first level and the nodes below it. -/
theorem nodes_perm (ts : List (RoseTree α)) : (nodes ts).Perm (ts ++ nodes (below ts)) := by
  induction ts with
  | nil => simp [nodes, below]
  | cons t ts ih =>
    rw [nodes, RoseTree.nodes_eq, below_cons, nodes_append, List.cons_append, List.cons_append]
    apply List.Perm.cons
    exact (ih.append_left _).trans (List.perm_append_comm_assoc _ _ _)

/-- **Level by level every node comes once.** -/
theorem levelOrder_perm (ts : List (RoseTree α)) : (levelOrder ts).Perm (nodes ts) := by
  have hn : ∀ n ts, depth ts ≤ n → ((List.range n).flatMap (level ts)).Perm (nodes (α := α) ts) := by
    intro n
    induction n with
    | zero =>
      intro ts h
      have hnil : ts = [] := level_depth h
      subst hnil
      simp [nodes]
    | succ n ih =>
      intro ts h
      have hb : depth (below ts) ≤ n := by
        rw [depth_below]
        omega
      rw [List.range_succ_eq_map, List.flatMap_cons, List.flatMap_map]
      exact ((ih (below ts) hb).append_left ts).trans (nodes_perm ts).symm
  exact hn (depth ts) ts le_rfl

end Forests

end Lib
end Csc501

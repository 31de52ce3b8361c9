/-
# The FIFO queues of the thread library

`queue.h` as lists of threads: the head of the list is the head of the
queue. `enqueue` adds at the tail, `dequeue` takes the head or gives `NULL`,
`contains` walks the nodes, and `remove_node` walks them all and unlinks the
ones that hold the thread.
-/
import Mathlib.Data.List.Nodup
import Mathlib.Data.List.Count

namespace Csc501
namespace Threads

/-- A `Thread *`. Thread 0 is the one `MyThreadInit` makes. -/
abbrev Tid := ℕ

/-- A `Queue *`, from its head to its tail. -/
abbrev Queue := List Tid

/-- `make_queue`: no node. -/
def makeQueue : Queue := []

/-- `is_empty`. -/
def isEmpty (q : Queue) : Bool := List.isEmpty q

/-- `dequeue`: the thread at the head (`none` for `NULL`) and the rest. -/
def dequeue : Queue → Option Tid × Queue
  | [] => (none, [])
  | t :: q => (some t, q)

/-- `enqueue`: at the tail. -/
def enqueue (q : Queue) (t : Tid) : Queue := q ++ [t]

/-- `contains`. -/
def contains (q : Queue) (t : Tid) : Bool := q.any (· == t)

/-- `remove_node`: the walk does not stop at the first match. -/
def removeNode (q : Queue) (t : Tid) : Queue := q.filter (· != t)

@[simp] theorem isEmpty_iff (q : Queue) : isEmpty q = true ↔ q = [] := List.isEmpty_iff

@[simp] theorem contains_iff (q : Queue) (t : Tid) : contains q t = true ↔ t ∈ q := by
  simp [contains]

@[simp] theorem isEmpty_eq_false (q : Queue) : isEmpty q = false ↔ q ≠ [] := List.isEmpty_eq_false_iff

@[simp] theorem contains_eq_false (q : Queue) (t : Tid) : contains q t = false ↔ t ∉ q := by
  rw [← contains_iff, Bool.not_eq_true]

@[simp] theorem mem_removeNode {q : Queue} {t u : Tid} : u ∈ removeNode q t ↔ u ∈ q ∧ u ≠ t := by
  simp [removeNode]

@[simp] theorem mem_enqueue {q : Queue} {t u : Tid} : u ∈ enqueue q t ↔ u ∈ q ∨ u = t := by
  simp [enqueue]

@[simp] theorem count_enqueue (q : Queue) (t u : Tid) :
    (enqueue q t).count u = q.count u + if t = u then 1 else 0 := by
  simp [enqueue, List.count_singleton]

theorem count_removeNode (q : Queue) (t u : Tid) :
    (removeNode q t).count u = if u = t then 0 else q.count u := by
  split
  · subst u
    exact List.count_eq_zero.mpr fun h => (mem_removeNode.mp h).2 rfl
  · rename_i h
    exact List.count_filter (by simpa using h)

end Threads
end Csc501

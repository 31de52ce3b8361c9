/-
# The queues in memory

`queue.h` as it is: a queue is a pair of pointers into a heap of nodes. `enqueue` links a
new node behind the tail, `dequeue` unlinks and frees the head, and `remove_node` walks
the nodes with the one before in hand and unlinks those that hold the thread, by one of
four ways: the only node, the tail, the head, or one in the middle. A result `none` is an
assertion that fails, a pointer followed that is `NULL` or freed, or a loop that runs out
of fuel. Which address `malloc` returns is an argument; it is one that is not allocated.

The queue that is in memory (`Linked`) is the list of threads of `Threads.Queue`: each
function does to the one what it does to the other (`queues_refine`), as long as no queue
is to hold a thread twice.

Key definitions: `LinkedQueue`, `removeLoop`, `Memory`, `QueueCall`, `execQueue`, `Linked`,
`Represents`, `Proper`.
Key theorems: `Linked.enqueue`, `Linked.dequeue`, `removeLoop_eq`, `Linked.remove`,
`execQueue_refines`, `queues_refine`.
-/
import Csc501.Lib.Chain
import Csc501.Lib.Run
import Csc501.Threads.Queue

namespace Csc501
namespace Threads

open Lib

/-! ### The functions of `queue.h` -/

/-- `struct Queue`, less its name. -/
structure LinkedQueue where
  head : Option ℕ
  tail : Option ℕ
  deriving DecidableEq

namespace LinkedQueue

/-- `is_empty`. -/
def isEmpty (x : LinkedQueue) : Bool := x.head = none ∧ x.tail = none

/-- The loop of `size`. -/
def sizeLoop (h : Heap Tid) : ℕ → Option ℕ → ℕ → Option ℕ
  | 0, _, _ => none
  | _ + 1, none, size => some size
  | fuel + 1, some a, size => do
    let c ← h a
    sizeLoop h fuel c.next (size + 1)

/-- `size`. -/
def size (h : Heap Tid) (fuel : ℕ) (x : LinkedQueue) : Option ℕ := sizeLoop h fuel x.head 0

/-- The loop of `contains`. -/
def containsLoop (h : Heap Tid) (thread : Tid) : ℕ → Option ℕ → Option Bool
  | 0, _ => none
  | _ + 1, none => some false
  | fuel + 1, some a => do
    let c ← h a
    if c.val = thread then some true else containsLoop h thread fuel c.next

/-- `contains`. -/
def contains (h : Heap Tid) (fuel : ℕ) (x : LinkedQueue) (thread : Tid) : Option Bool :=
  containsLoop h thread fuel x.head

/-- `enqueue`, with the address of the new node. -/
def enqueue (h : Heap Tid) (x : LinkedQueue) (thread : Tid) (node : ℕ) : Option (Heap Tid × LinkedQueue) :=
  let h := Function.update h node (some ⟨thread, none⟩)
  if x.isEmpty then some (h, ⟨some node, some node⟩)
  else do
    guard (x.head ≠ none)
    guard (x.tail ≠ none)
    let b ← x.tail
    let c ← h b
    some (Function.update h b (some { c with next := some node }), { x with tail := some node })

/-- `dequeue`: the thread is `none` for `NULL`. -/
def dequeue (h : Heap Tid) (x : LinkedQueue) : Option (Heap Tid × LinkedQueue × Option Tid) :=
  match x.head with
  | none => some (h, x, none)
  | some temp => do
    guard (x.head ≠ none)
    guard (x.tail ≠ none)
    let c ← h temp
    let x' : LinkedQueue := if x.head = x.tail then ⟨none, none⟩ else { x with head := c.next }
    some (Function.update h temp none, x', some c.val)

/-- In `remove_node`: the node at `a`, which is `c`, is unlinked, with `last` the one in
front of it. -/
def unlink (h : Heap Tid) (x : LinkedQueue) (last : Option ℕ) (a : ℕ) (c : Node Tid) :
    Option (Heap Tid × LinkedQueue) :=
  if some a = x.head ∧ some a = x.tail then some (h, ⟨none, none⟩)
  else if some a = x.tail then do
    let b ← last
    let d ← h b
    some (Function.update h b (some { d with next := none }), { x with tail := last })
  else if some a = x.head then some (h, { x with head := c.next })
  else do
    let b ← last
    let d ← h b
    some (Function.update h b (some { d with next := c.next }), x)

/-- The loop of `remove_node`. -/
def removeLoop (thread : Tid) : ℕ → Heap Tid → LinkedQueue → Option ℕ → Option ℕ → Option (Heap Tid × LinkedQueue)
  | 0, _, _, _, _ => none
  | _ + 1, h, x, _, none => some (h, x)
  | fuel + 1, h, x, last, some a => do
    let c ← h a
    let (h, x) ← if c.val = thread then unlink h x last a c else some (h, x)
    let c ← h a
    removeLoop thread fuel h x (some a) c.next

/-- `remove_node`. -/
def removeNode (h : Heap Tid) (fuel : ℕ) (x : LinkedQueue) (thread : Tid) : Option (Heap Tid × LinkedQueue) :=
  removeLoop thread fuel h x none x.head

end LinkedQueue

/-! ### A queue in memory -/

/-- The nodes `l` are the queue `x`: they are linked from the head on up to the `NULL`
behind the last of them, which is the tail. -/
structure Linked (h : Heap Tid) (x : LinkedQueue) (l : List (ℕ × Tid)) : Prop where
  chain : Chain h x.head l none
  tail : x.tail = (addresses l).getLast?

theorem linked_nil (h : Heap Tid) : Linked h ⟨none, none⟩ [] := ⟨rfl, rfl⟩

section Functions

variable {h : Heap Tid} {x : LinkedQueue} {l : List (ℕ × Tid)}

/-- The head of a queue and its tail are `NULL` both or neither. -/
theorem Linked.head_eq (hl : Linked h x l) : x.head = (addresses l).head? := by
  cases l with
  | nil => exact hl.chain
  | cons y l => exact hl.chain.1

theorem Linked.isEmpty_eq (hl : Linked h x l) : x.isEmpty = isEmpty (values l) := by
  rw [LinkedQueue.isEmpty, hl.head_eq, hl.tail]
  cases l with
  | nil => rfl
  | cons y l => simp [addresses, values, Threads.isEmpty]

/-- Behind the tail is `NULL`. -/
theorem Linked.tail_next (hl : Linked h x l) {a : ℕ} (ha : x.tail = some a) : ∃ t, h a = some ⟨t, none⟩ := by
  rcases List.eq_nil_or_concat' l with rfl | ⟨l, ⟨b, t⟩, rfl⟩
  · exact absurd (hl.tail.symm.trans ha) (by simp)
  · obtain rfl : b = a := Option.some.inj ((hl.tail.trans (last_address l b t)).symm.trans ha)
    obtain ⟨r, -, rfl, n, hn, rfl⟩ := chain_append.mp hl.chain
    exact ⟨t, hn⟩

theorem Linked.null_iff (hl : Linked h x l) : x.head = none ↔ x.tail = none := by
  rw [hl.head_eq, hl.tail, List.head?_eq_none_iff, List.getLast?_eq_none_iff]

/-- What is stored elsewhere does not matter. -/
theorem Linked.frame {h' : Heap Tid} (hl : Linked h x l) (hsame : ∀ a ∈ addresses l, h' a = h a) : Linked h' x l :=
  ⟨hl.chain.frame hsame, hl.tail⟩

theorem sizeLoop_eq : ∀ {l : List (ℕ × Tid)} {p : Option ℕ} {fuel n : ℕ}, Chain h p l none → l.length < fuel →
    LinkedQueue.sizeLoop h fuel p n = some (n + l.length)
  | [], p, fuel + 1, n, hc, _ => by
    obtain rfl : p = none := hc
    rfl
  | (a, t) :: l, p, fuel + 1, n, ⟨hp, k, hk, hc⟩, hlt => by
    subst hp
    simp only [LinkedQueue.sizeLoop, hk, Option.bind_eq_bind, Option.bind_some]
    rw [sizeLoop_eq hc (by simpa using hlt), List.length_cons]
    congr 1
    omega

theorem containsLoop_eq (t : Tid) : ∀ {l : List (ℕ × Tid)} {p : Option ℕ} {fuel : ℕ}, Chain h p l none →
    l.length < fuel → LinkedQueue.containsLoop h t fuel p = some (contains (values l) t)
  | [], p, fuel + 1, hc, _ => by
    obtain rfl : p = none := hc
    rfl
  | (a, u) :: l, p, fuel + 1, ⟨hp, k, hk, hc⟩, hlt => by
    subst hp
    simp only [LinkedQueue.containsLoop, hk, Option.bind_eq_bind, Option.bind_some]
    by_cases hu : u = t
    · simp [hu, contains]
    · rw [if_neg hu, containsLoop_eq t hc (by simpa using hlt)]
      simp [contains, hu]

/-- **`enqueue` adds at the end.** -/
theorem Linked.enqueue (hl : Linked h x l) {node : ℕ} (hnode : h node = none) (t : Tid) :
    ∃ h' x', x.enqueue h t node = some (h', x') ∧ Linked h' x' (l ++ [(node, t)]) ∧
      ∀ b, b ≠ node → b ∉ addresses l → h' b = h b := by
  have hfresh : node ∉ addresses l := fun hm => hl.chain.live hm hnode
  rcases List.eq_nil_or_concat' l with rfl | ⟨l, ⟨a, u⟩, rfl⟩
  · have hempty : x.isEmpty = true := hl.isEmpty_eq
    refine ⟨_, _, if_pos hempty, ⟨⟨rfl, none, by simp, rfl⟩, rfl⟩, ?_⟩
    intro b hb _
    exact Function.update_of_ne hb _ _
  · -- the tail is the last node, and gets a next one
    have ha : a ∉ addresses l := last_fresh hl.chain.nodup
    have hne : a ≠ node := by
      rintro rfl
      exact hfresh (by simp)
    have htail : x.tail = some a := hl.tail.trans (last_address l a u)
    have hhead : x.head ≠ none := by rw [hl.head_eq]; simp
    obtain ⟨r, -, rfl, n, hn, rfl⟩ := chain_append.mp hl.chain
    have hold : (Function.update h node (some ⟨t, none⟩) : Heap Tid) a = some ⟨u, none⟩ := by
      rw [Function.update_of_ne hne, hn]
    have hempty : ¬ x.isEmpty = true := by simp [LinkedQueue.isEmpty, hhead]
    refine ⟨Function.update (Function.update h node (some ⟨t, none⟩)) a (some ⟨u, some node⟩),
      { x with tail := some node }, ?_, ⟨?_, by simp⟩, ?_⟩
    · simp only [LinkedQueue.enqueue, if_neg hempty, htail, hold, guard, if_pos hhead, Option.bind_eq_bind,
        Option.pure_def, ne_eq, reduceCtorEq, not_false_eq_true, if_true, Option.bind_some]
    · refine chain_append.mpr ⟨some node, ?_, rfl, none, ?_, rfl⟩
      · exact (hl.chain.update hfresh).relink ha (some node)
      · rw [Function.update_of_ne (Ne.symm hne), Function.update_self]
    · intro b hb hb'
      have hba : b ≠ a := by
        rintro rfl
        exact hb' (by simp)
      rw [Function.update_of_ne hba, Function.update_of_ne hb]

/-- **`dequeue` takes the first one**, or nothing from an empty queue. -/
theorem Linked.dequeue (hl : Linked h x l) :
    ∃ h' x' l', x.dequeue h = some (h', x', (dequeue (values l)).1) ∧ Linked h' x' l' ∧
      values l' = (dequeue (values l)).2 ∧ (∀ b ∈ addresses l', b ∈ addresses l) ∧
      ∀ b, b ∉ addresses l → h' b = h b := by
  cases l with
  | nil =>
    have hhead : x.head = none := hl.chain
    refine ⟨h, x, [], ?_, hl, rfl, by simp, fun _ _ => rfl⟩
    simp only [LinkedQueue.dequeue, hhead]
    rfl
  | cons y l =>
    obtain ⟨a, t⟩ := y
    obtain ⟨hhead, n, hn, hc⟩ := hl.chain
    have ha : a ∉ addresses l := (List.nodup_cons.mp hl.chain.nodup).1
    obtain ⟨b, hb⟩ : ∃ b, x.tail = some b := by
      rw [hl.tail, addresses_cons]
      exact ⟨_, List.getLast?_cons⟩
    refine ⟨Function.update h a none, if x.head = x.tail then ⟨none, none⟩ else { x with head := n }, l, ?_, ?_, rfl,
      fun c hc => List.mem_cons_of_mem a hc, ?_⟩
    · simp only [LinkedQueue.dequeue, hhead, hb, hn, guard, Option.bind_eq_bind, Option.pure_def, ne_eq, reduceCtorEq,
        not_false_eq_true, if_true, Option.bind_some]
      rfl
    · rcases List.eq_nil_or_concat' l with rfl | ⟨l, ⟨c, u⟩, rfl⟩
      · have heq : x.head = x.tail := hhead.trans hl.tail.symm
        rw [if_pos heq]
        exact ⟨rfl, rfl⟩
      · have htail : x.tail = some c := hl.tail.trans (last_address ((a, t) :: l) c u)
        have hne : ¬ x.head = x.tail := by
          rw [hhead, htail]
          rintro ⟨⟩
          exact ha (by simp)
        rw [if_neg hne]
        exact ⟨hc.update ha, htail.trans (last_address l c u).symm⟩
    · intro c hc
      rw [Function.update_of_ne]
      rintro rfl
      exact hc (by simp)

/-! ### Removing -/

theorem removeNode_of_notMem {q : Queue} {t : Tid} (ht : t ∉ q) : removeNode q t = q := by
  apply List.filter_eq_self.mpr
  intro u hu
  simp only [bne_iff_ne, ne_eq]
  rintro rfl
  exact ht hu

theorem removeNode_append (q r : Queue) (t : Tid) : removeNode (q ++ r) t = removeNode q t ++ removeNode r t :=
  List.filter_append q r

theorem removeNode_cons_self (q : Queue) (t : Tid) : removeNode (t :: q) t = removeNode q t := by simp [removeNode]

/-- Where no node holds the thread, the loop does nothing. -/
theorem removeLoop_absent {t : Tid} : ∀ {l : List (ℕ × Tid)} {p last : Option ℕ} {fuel : ℕ}, Chain h p l none →
    t ∉ values l → LinkedQueue.removeLoop t fuel h x last p = if l.length < fuel then some (h, x) else none
  | _, _, _, 0, _, _ => by simp [LinkedQueue.removeLoop]
  | [], p, last, fuel + 1, hc, _ => by
    obtain rfl : p = none := hc
    rfl
  | (a, u) :: l, p, last, fuel + 1, ⟨hp, n, hn, hc⟩, ht => by
    subst hp
    rw [values_cons, List.mem_cons, not_or] at ht
    simp only [LinkedQueue.removeLoop, hn, Option.bind_eq_bind, Option.bind_some, if_neg (Ne.symm ht.1)]
    rw [removeLoop_absent hc ht.2, List.length_cons]
    simp only [Nat.add_lt_add_iff_right]

/-- **A node is unlinked**: whichever of the four ways it takes, the nodes in front of it
and those behind it are the queue then. -/
theorem Linked.unlink {pre suf : List (ℕ × Tid)} {a : ℕ} {t : Tid} (hl : Linked h x (pre ++ (a, t) :: suf)) :
    ∃ n h' x', h a = some ⟨t, n⟩ ∧ x.unlink h (addresses pre).getLast? a ⟨t, n⟩ = some (h', x') ∧
      Linked h' x' (pre ++ suf) ∧ h' a = some ⟨t, n⟩ ∧ Chain h' n suf none ∧
      ∀ b, b ∉ addresses pre → h' b = h b := by
  obtain ⟨r, hpre, rfl, n, hn, hsuf⟩ := chain_append.mp hl.chain
  have hnd := hl.chain.nodup
  rw [addresses_append, addresses_cons, List.nodup_append, List.nodup_cons] at hnd
  obtain ⟨hndpre, ⟨ha, -⟩, hdisj⟩ := hnd
  have hhead := hl.head_eq
  have htail := hl.tail
  refine ⟨n, ?_⟩
  rcases List.eq_nil_or_concat' pre with rfl | ⟨pre, ⟨b, v⟩, rfl⟩
  · have hfirst : some a = x.head := by rw [hhead]; simp
    rcases List.eq_nil_or_concat' suf with rfl | ⟨suf, ⟨c, u⟩, rfl⟩
    · -- the only node
      have hlast : some a = x.tail := by rw [htail]; simp
      obtain rfl : n = none := hsuf
      exact ⟨h, ⟨none, none⟩, hn, if_pos ⟨hfirst, hlast⟩, ⟨rfl, rfl⟩, hn, rfl, fun _ _ => rfl⟩
    · -- the head
      rw [List.nil_append, ← List.cons_append, last_address] at htail
      have hlast : ¬ some a = x.tail := by
        rw [htail]
        rintro ⟨⟩
        exact ha (by simp)
      refine ⟨h, { x with head := n }, hn, ?_, ⟨hsuf, ?_⟩, hn, hsuf, fun _ _ => rfl⟩
      · rw [LinkedQueue.unlink, if_neg (fun h => hlast h.2), if_neg hlast, if_pos hfirst]
      · exact htail.trans (last_address suf c u).symm
  · have hab : a ≠ b := fun h => hdisj b (by simp) a (by simp) h.symm
    have hfirst : ¬ some a = x.head := by
      intro h
      rw [← h] at hpre
      exact hdisj a (hpre.head_mem (by simp)) a (by simp) rfl
    have hb : h b = some ⟨v, some a⟩ := by
      obtain ⟨s, -, rfl, k, hk, hk'⟩ := chain_append.mp hpre
      obtain rfl : k = some a := hk'
      exact hk
    have hbpre : b ∉ addresses pre := last_fresh hndpre
    have hbsuf : b ∉ addresses suf := fun hm => hdisj b (by simp) b (List.mem_cons_of_mem a hm) rfl
    have hlastb := last_address pre b v
    have hframe : ∀ (y : Option (Node Tid)) (c : ℕ), c ∉ addresses (pre ++ [(b, v)]) →
        Function.update h b y c = h c := by
      intro y c hc
      rw [Function.update_of_ne]
      rintro rfl
      exact hc (by simp)
    rcases List.eq_nil_or_concat' suf with rfl | ⟨suf, ⟨c, u⟩, rfl⟩
    · -- the tail
      have hlast : some a = x.tail := by rw [htail, last_address]
      obtain rfl : n = none := hsuf
      refine ⟨Function.update h b (some ⟨v, none⟩), { x with tail := some b }, hn, ?_, ⟨?_, ?_⟩, ?_, rfl, hframe _⟩
      · rw [LinkedQueue.unlink, if_neg (fun h => hfirst h.1), if_pos hlast, hlastb]
        simp [hb]
      · rw [List.append_nil]
        exact hpre.relink hbpre none
      · simp
      · rw [Function.update_of_ne hab, hn]
    · -- one in the middle
      rw [← List.cons_append, ← List.append_assoc, last_address] at htail
      have hlast : ¬ some a = x.tail := by
        rw [htail]
        rintro ⟨⟩
        exact ha (by simp)
      refine ⟨Function.update h b (some ⟨v, n⟩), x, hn, ?_, ⟨?_, ?_⟩, ?_, hsuf.update hbsuf, hframe _⟩
      · rw [LinkedQueue.unlink, if_neg (fun h => hfirst h.1), if_neg hlast, if_neg hfirst, hlastb]
        simp [hb]
      · exact chain_append.mpr ⟨n, hpre.relink hbpre n, hsuf.update hbsuf⟩
      · rw [htail, ← List.append_assoc, last_address]
      · rw [Function.update_of_ne hab, hn]

/-- **The loop of `remove_node`**, in front of the nodes `suf`, with `pre` behind it. It
needs as much fuel as there are nodes left. Up to the node that holds the thread it only
walks; it unlinks that one, and no later one holds the thread. -/
theorem removeLoop_eq {t : Tid} : ∀ {suf pre : List (ℕ × Tid)} {p : Option ℕ}, Linked h x (pre ++ suf) →
    Chain h p suf none → t ∉ values pre → (values suf).Nodup →
    ∃ h' x' l', (∀ fuel, LinkedQueue.removeLoop t fuel h x (addresses pre).getLast? p =
        if suf.length < fuel then some (h', x') else none) ∧
      Linked h' x' l' ∧ values l' = removeNode (values (pre ++ suf)) t ∧
      (∀ b ∈ addresses l', b ∈ addresses (pre ++ suf)) ∧ ∀ b, b ∉ addresses (pre ++ suf) → h' b = h b
  | [], pre, p, hl, hc, ht, _ => by
    rw [List.append_nil] at hl ⊢
    exact ⟨h, x, pre, fun fuel => removeLoop_absent hc (by simp), hl, (removeNode_of_notMem ht).symm, fun _ hb => hb,
      fun _ _ => rfl⟩
  | (a, u) :: suf, pre, p, hl, hc, ht, hnd => by
    rw [values_cons, List.nodup_cons] at hnd
    by_cases hu : u = t
    · subst hu
      obtain ⟨n, h', x', hn, hun, hl', hn', hsuf, hframe⟩ := hl.unlink
      refine ⟨h', x', pre ++ suf, ?_, hl', ?_, ?_, ?_⟩
      · intro fuel
        obtain rfl : p = some a := hc.1
        cases fuel with
        | zero => rfl
        | succ fuel =>
          simp only [LinkedQueue.removeLoop, hn, hun, hn', Option.bind_eq_bind, Option.bind_some, if_true]
          rw [removeLoop_absent hsuf hnd.1, List.length_cons]
          simp only [Nat.add_lt_add_iff_right]
      · have hskip : removeNode (u :: values suf) u = values suf := by
          rw [removeNode_cons_self, removeNode_of_notMem hnd.1]
        rw [values_append, values_append, values_cons, removeNode_append, hskip, removeNode_of_notMem ht]
      · intro b hb
        rw [addresses_append, List.mem_append] at hb ⊢
        exact hb.imp_right (List.mem_cons_of_mem a)
      · intro b hb
        apply hframe
        intro hm
        exact hb (by simp [hm])
    · obtain ⟨hp, n, hn, hsuf⟩ := hc
      have hmove : pre ++ (a, u) :: suf = (pre ++ [(a, u)]) ++ suf := by simp
      rw [hmove] at hl ⊢
      obtain ⟨h', x', l', hrun, hrest⟩ := removeLoop_eq hl hsuf (t := t) (by simp [ht, Ne.symm hu]) hnd.2
      refine ⟨h', x', l', ?_, hrest⟩
      intro fuel
      subst hp
      cases fuel with
      | zero => rfl
      | succ fuel =>
        rw [last_address] at hrun
        simp only [LinkedQueue.removeLoop, hn, Option.bind_eq_bind, Option.bind_some, if_neg hu]
        rw [hrun, List.length_cons]
        simp only [Nat.add_lt_add_iff_right]

/-- **`remove_node` removes the thread**, and nothing else. -/
theorem Linked.remove (hl : Linked h x l) (hnd : (values l).Nodup) (t : Tid) :
    ∃ h' x' l', (∀ fuel, x.removeNode h fuel t = if l.length < fuel then some (h', x') else none) ∧
      Linked h' x' l' ∧ values l' = removeNode (values l) t ∧ (∀ b ∈ addresses l', b ∈ addresses l) ∧
      ∀ b, b ∉ addresses l → h' b = h b :=
  removeLoop_eq (show Linked h x ([] ++ l) from hl) hl.chain (by simp) hnd

end Functions

/-! ### All queues -/

/-- The nodes that are allocated, and the queues. -/
structure Memory where
  nodes : Heap Tid
  queues : ℕ → Option LinkedQueue

/-- Nothing is allocated. -/
def Memory.empty : Memory := ⟨fun _ => none, fun _ => none⟩

/-- A call, with the address of what it allocates. -/
inductive QueueCall
  | makeQueue (q : ℕ)
  | enqueue (q : ℕ) (thread : Tid) (node : ℕ)
  | dequeue (q : ℕ)
  | removeNode (q : ℕ) (thread : Tid)
  deriving DecidableEq

/-- What a call leaves, and the thread a `dequeue` returns. -/
def execQueue (fuel : ℕ) (m : Memory) : QueueCall → Option (Memory × Option Tid)
  | .makeQueue q => some (⟨m.nodes, Function.update m.queues q (some ⟨none, none⟩)⟩, none)
  | .enqueue q t node => do
    let x ← m.queues q
    let (h, x) ← x.enqueue m.nodes t node
    some (⟨h, Function.update m.queues q (some x)⟩, none)
  | .dequeue q => do
    let x ← m.queues q
    let (h, x, thread) ← x.dequeue m.nodes
    some (⟨h, Function.update m.queues q (some x)⟩, thread)
  | .removeNode q t => do
    let x ← m.queues q
    let (h, x) ← x.removeNode m.nodes fuel t
    some (⟨h, Function.update m.queues q (some x)⟩, none)

/-- What `malloc` returns is not allocated. -/
def Fresh (m : Memory) : QueueCall → Prop
  | .makeQueue q => m.queues q = none
  | .enqueue _ _ node => m.nodes node = none
  | _ => True

/-- A call and the thread it returns. -/
structure QueueEvent where
  call : QueueCall
  returned : Option Tid

/-- The queues, under any calls. -/
def queueLib : Lts Memory QueueEvent where
  init m := m = Memory.empty
  step m e m' := Fresh m e.call ∧ ∃ fuel, execQueue fuel m e.call = some (m', e.returned)

/-- The lists of threads behind the queues that exist. -/
abbrev Lists := ℕ → Option Queue

/-- What a call does to the lists. -/
def listCall (f : Lists) : QueueCall → Lists
  | .makeQueue q => Function.update f q (some makeQueue)
  | .enqueue q t _ => Function.update f q ((f q).map (enqueue · t))
  | .dequeue q => Function.update f q ((f q).map fun l => (dequeue l).2)
  | .removeNode q t => Function.update f q ((f q).map (removeNode · t))

/-- What a call returns, by the lists. -/
def listReturns (f : Lists) : QueueCall → Option Tid
  | .dequeue q => (f q).bind fun l => (dequeue l).1
  | _ => none

/-- The lists after some calls. -/
def lists (es : List QueueEvent) : Lists := es.foldl (fun f e => listCall f e.call) fun _ => none

/-- A call on a queue that exists, and by which no queue holds a thread twice. -/
def Proper (f : Lists) : QueueCall → Prop
  | .makeQueue _ => True
  | .enqueue q t _ => ∃ l, f q = some l ∧ t ∉ l
  | .dequeue q => ∃ l, f q = some l
  | .removeNode q _ => ∃ l, f q = some l

/-- All calls of a run were proper. -/
def AllProper (es : List QueueEvent) : Prop := ∀ pre e post, es = pre ++ e :: post → Proper (lists pre) e.call

/-- The nodes `L q` are those of the queue `q`: no two queues share one. -/
structure Layout (m : Memory) (f : Lists) (L : ℕ → List (ℕ × Tid)) : Prop where
  free : ∀ q, m.queues q = none → f q = none ∧ L q = []
  linked : ∀ q x, m.queues q = some x → Linked m.nodes x (L q) ∧ f q = some (values (L q)) ∧ (values (L q)).Nodup
  apart : ∀ q r a, q ≠ r → a ∈ addresses (L q) → a ∉ addresses (L r)

section Layouts

variable {m : Memory} {f : Lists} {L : ℕ → List (ℕ × Tid)}

theorem Layout.live (hL : Layout m f L) {q a : ℕ} (ha : a ∈ addresses (L q)) : m.nodes a ≠ none := by
  cases hq : m.queues q with
  | none =>
    rw [(hL.free q hq).2] at ha
    exact absurd ha (by simp)
  | some x => exact (hL.linked q x hq).1.chain.live ha

/-- A queue whose list exists. -/
theorem Layout.queue (hL : Layout m f L) {q : ℕ} {l : Queue} (hq : f q = some l) :
    ∃ x, m.queues q = some x ∧ Linked m.nodes x (L q) ∧ values (L q) = l ∧ l.Nodup := by
  cases hx : m.queues q with
  | none => exact absurd ((hL.free q hx).1.symm.trans hq) (by simp)
  | some x =>
    obtain ⟨h1, h2, h3⟩ := hL.linked q x hx
    obtain rfl : values (L q) = l := Option.some.inj (h2.symm.trans hq)
    exact ⟨x, rfl, h1, rfl, h3⟩

/-- **One queue changes**: the others stay as they are, since the call stores only in its
own nodes and in fresh ones. -/
theorem Layout.update (hL : Layout m f L) {q : ℕ} {h' : Heap Tid} {x' : LinkedQueue} {l' : List (ℕ × Tid)}
    (hx' : Linked h' x' l') (hnd : (values l').Nodup) (hsub : ∀ b ∈ addresses l', b ∈ addresses (L q) ∨ m.nodes b = none)
    (hframe : ∀ b, b ∉ addresses (L q) → m.nodes b ≠ none → h' b = m.nodes b) :
    Layout ⟨h', Function.update m.queues q (some x')⟩ (Function.update f q (some (values l')))
      (Function.update L q l') where
  free r hr := by
    have hne : r ≠ q := by
      rintro rfl
      simp at hr
    simp only [Function.update_of_ne hne] at hr ⊢
    exact hL.free r hr
  linked r x hr := by
    by_cases hne : r = q
    · subst hne
      simp only [Function.update_self, Option.some.injEq] at hr ⊢
      exact ⟨hr ▸ hx', trivial, hnd⟩
    · simp only [Function.update_of_ne hne] at hr ⊢
      obtain ⟨h1, h2, h3⟩ := hL.linked r x hr
      refine ⟨h1.frame ?_, h2, h3⟩
      intro a ha
      exact hframe a (hL.apart r q a hne ha) (hL.live ha)
  apart r r' a hne ha := by
    -- an address of the changed queue was its own or is fresh, so no other queue has it
    have hown : ∀ s, s ≠ q → a ∈ addresses l' → a ∉ addresses (L s) := by
      intro s hs hal has
      rcases hsub a hal with h | h
      · exact hL.apart q s a (Ne.symm hs) h has
      · exact hL.live has h
    by_cases hr : r = q
    · subst hr
      rw [Function.update_self] at ha
      rw [Function.update_of_ne (Ne.symm hne)]
      exact hown r' (Ne.symm hne) ha
    · rw [Function.update_of_ne hr] at ha
      by_cases hr' : r' = q
      · subst hr'
        rw [Function.update_self]
        exact fun hal => hown r hr hal ha
      · rw [Function.update_of_ne hr']
        exact hL.apart r r' a hne ha

end Layouts

/-- The memory holds the lists. -/
def Represents (m : Memory) (f : Lists) : Prop := ∃ L, Layout m f L

theorem represents_empty : Represents Memory.empty (lists []) := by
  refine ⟨fun _ => [], fun _ _ => ⟨rfl, rfl⟩, ?_, ?_⟩
  · intro q x hx
    cases hx
  · intro q r a _ ha
    cases ha

/-- **A proper call does to the queues what it does to the lists.** With enough fuel it
returns, and with less nothing else does. -/
theorem execQueue_refines {m : Memory} {f : Lists} {call : QueueCall} (hR : Represents m f) (hfresh : Fresh m call)
    (hp : Proper f call) :
    ∃ m' n, (∀ fuel, execQueue fuel m call = if n ≤ fuel then some (m', listReturns f call) else none) ∧
      Represents m' (listCall f call) := by
  obtain ⟨L, hL⟩ := hR
  cases call with
  | makeQueue q =>
    refine ⟨_, 0, fun fuel => rfl, ?_⟩
    exact ⟨_, hL.update (linked_nil m.nodes) List.nodup_nil (by simp) fun _ _ _ => rfl⟩
  | enqueue q t node =>
    obtain ⟨l, hq, ht⟩ := hp
    obtain ⟨x, hx, hl, rfl, hnd⟩ := hL.queue hq
    obtain ⟨h', x', hen, hl', hframe⟩ := hl.enqueue hfresh t
    refine ⟨⟨h', Function.update m.queues q (some x')⟩, 0, ?_, Function.update L q (L q ++ [(node, t)]), ?_⟩
    · intro fuel
      simp [execQueue, hx, hen, listReturns]
    · have hlist : listCall f (.enqueue q t node) = Function.update f q (some (values (L q ++ [(node, t)]))) := by
        simp [listCall, hq, enqueue]
      rw [hlist]
      apply hL.update hl'
      · rw [values_append, List.nodup_append]
        refine ⟨hnd, by simp, ?_⟩
        intro u hu v hv
        obtain rfl : v = t := by simpa using hv
        exact fun h => ht (h ▸ hu)
      · intro b hb
        rw [addresses_append, List.mem_append] at hb
        refine hb.imp_right fun hb => ?_
        obtain rfl : b = node := by simpa using hb
        exact hfresh
      · intro b hb hlive
        refine hframe b ?_ hb
        rintro rfl
        exact hlive hfresh
  | dequeue q =>
    obtain ⟨l, hq⟩ := hp
    obtain ⟨x, hx, hl, rfl, hnd⟩ := hL.queue hq
    obtain ⟨h', x', l', hde, hl', hval, hsub, hframe⟩ := hl.dequeue
    refine ⟨⟨h', Function.update m.queues q (some x')⟩, 0, ?_, Function.update L q l', ?_⟩
    · intro fuel
      simp [execQueue, hx, hde, listReturns, hq]
    · have hlist : listCall f (.dequeue q) = Function.update f q (some (values l')) := by
        simp [listCall, hq, hval]
      rw [hlist]
      refine hL.update hl' ?_ (fun b hb => Or.inl (hsub b hb)) fun b hb _ => hframe b hb
      rw [hval]
      cases hv : values (L q) with
      | nil => exact List.nodup_nil
      | cons u l =>
        rw [hv] at hnd
        exact (List.nodup_cons.mp hnd).2
  | removeNode q t =>
    obtain ⟨l, hq⟩ := hp
    obtain ⟨x, hx, hl, rfl, hnd⟩ := hL.queue hq
    obtain ⟨h', x', l', hrun, hl', hval, hsub, hframe⟩ := hl.remove hnd t
    refine ⟨⟨h', Function.update m.queues q (some x')⟩, (L q).length + 1, ?_, Function.update L q l', ?_⟩
    · intro fuel
      simp only [execQueue, hx, hrun, listReturns, Option.bind_eq_bind, Option.bind_some, Nat.add_one_le_iff]
      split_ifs <;> rfl
    · have hlist : listCall f (.removeNode q t) = Function.update f q (some (values l')) := by
        simp [listCall, hq, hval]
      rw [hlist]
      refine hL.update hl' ?_ (fun b hb => Or.inl (hsub b hb)) fun b hb _ => hframe b hb
      rw [hval]
      exact hnd.filter _

theorem lists_snoc (es : List QueueEvent) (e : QueueEvent) : lists (es ++ [e]) = listCall (lists es) e.call := by
  simp [lists]

theorem AllProper.left {es es' : List QueueEvent} (h : AllProper (es ++ es')) : AllProper es := by
  intro pre e post he
  exact h pre e (post ++ es') (by simp [he])

theorem AllProper.snoc {es : List QueueEvent} {e : QueueEvent} (h : AllProper es) (he : Proper (lists es) e.call) :
    AllProper (es ++ [e]) := by
  intro pre d post hd
  rcases snoc_eq_append_cons hd with ⟨rfl, rfl, -⟩ | ⟨post, -, hes⟩
  · exact he
  · exact h pre d post hes

/-- What a run of proper calls leaves, and what each of them returned. -/
theorem run_represents {tr : List (Trans Memory QueueEvent)} {m : Memory} (h : queueLib.Run Memory.empty tr m)
    (hp : AllProper (labels tr)) :
    Represents m (lists (labels tr)) ∧
      ∀ pre e post, labels tr = pre ++ e :: post → e.returned = listReturns (lists pre) e.call := by
  obtain ⟨hI, hQ⟩ := Lts.Run.each (M := queueLib) (I := fun es m => AllProper es → Represents m (lists es))
    (Q := fun es e => AllProper (es ++ [e]) → e.returned = listReturns (lists es) e.call)
    (fun _ => represents_empty) (fun es m e m' hI hst => by
      obtain ⟨hfresh, fuel, hex⟩ := hst
      have hone : AllProper (es ++ [e]) → e.returned = listReturns (lists es) e.call ∧
          Represents m' (listCall (lists es) e.call) := by
        intro hp
        obtain ⟨m₁, n, hrun, hR⟩ := execQueue_refines (hI hp.left) hfresh (hp es e [] rfl)
        rw [hrun fuel] at hex
        split_ifs at hex
        obtain ⟨rfl, hret⟩ := Prod.mk.inj (Option.some.inj hex)
        exact ⟨hret.symm, hR⟩
      rw [lists_snoc]
      exact ⟨fun hp => (hone hp).1, fun hp => (hone hp).2⟩) h
  refine ⟨hI hp, fun pre e post he => hQ pre e post he ?_⟩
  rw [he, ← List.singleton_append, ← List.append_assoc] at hp
  exact hp.left

/-- **The linked queues are lists.** After every sequence of proper calls each queue that
was made is in memory as it should be: its head and its tail are `NULL` both or neither,
and else the tail is the last of the nodes linked from the head on, no node comes twice,
and behind the tail is `NULL`. The threads in the nodes are the list that the calls make
by appending, taking the first, and removing the thread; `is_empty`, `size` and `contains`
say what the list does. Each `dequeue` returned the first of the list, or `NULL`. And the
next proper call returns: no assertion fails, and no loop runs on. -/
theorem queues_refine {tr : List (Trans Memory QueueEvent)} {m : Memory} (h : queueLib.Run Memory.empty tr m)
    (hp : AllProper (labels tr)) :
    (∀ q, m.queues q = none ↔ lists (labels tr) q = none) ∧
    (∀ q x, m.queues q = some x → ∃ l, Linked m.nodes x l ∧ lists (labels tr) q = some (values l) ∧
      (x.head = none ↔ x.tail = none) ∧ (addresses l).Nodup ∧ (values l).Nodup ∧
      (∀ a, x.tail = some a → (addresses l).getLast? = some a ∧ ∃ t, m.nodes a = some ⟨t, none⟩) ∧
      x.isEmpty = isEmpty (values l) ∧
      ∀ fuel, l.length < fuel → x.size m.nodes fuel = some (values l).length ∧
        ∀ t, x.contains m.nodes fuel t = some (contains (values l) t)) ∧
    (∀ pre e post, labels tr = pre ++ e :: post → e.returned = listReturns (lists pre) e.call) ∧
    ∀ call, Fresh m call → Proper (lists (labels tr)) call → ∃ m' n, ∀ fuel, n ≤ fuel →
      execQueue fuel m call = some (m', listReturns (lists (labels tr)) call) := by
  obtain ⟨hR, hret⟩ := run_represents h hp
  obtain ⟨L, hL⟩ := id hR
  refine ⟨?_, ?_, hret, ?_⟩
  · intro q
    constructor
    · exact fun hq => (hL.free q hq).1
    · intro hq
      cases hx : m.queues q with
      | none => rfl
      | some x => exact absurd ((hL.linked q x hx).2.1.symm.trans hq) (by simp)
  · intro q x hx
    obtain ⟨hl, hq, hnd⟩ := hL.linked q x hx
    refine ⟨L q, hl, hq, hl.null_iff, hl.chain.nodup, hnd, ?_, hl.isEmpty_eq, ?_⟩
    · exact fun a ha => ⟨hl.tail.symm.trans ha, hl.tail_next ha⟩
    · intro fuel hlt
      refine ⟨?_, fun t => containsLoop_eq t hl.chain hlt⟩
      rw [LinkedQueue.size, sizeLoop_eq hl.chain hlt, Nat.zero_add, values, List.length_map]
  · intro call hfresh hcall
    obtain ⟨m', n, hrun, -⟩ := execQueue_refines hR hfresh hcall
    exact ⟨m', n, fun fuel hle => by rw [hrun, if_pos hle]⟩

theorem queueLib_step {m m' : Memory} {r : Option Tid} (c : QueueCall) (fuel : ℕ) (hfresh : Fresh m c)
    (h : execQueue fuel m c = some (m', r)) : queueLib.step m ⟨c, r⟩ m' :=
  ⟨hfresh, fuel, h⟩

/-- A queue gets the threads 5 and 7 and loses 7, its tail: 9 is linked behind 5 then. -/
theorem queues_refine_tailRemoved : ∃ tr m x l, queueLib.Run Memory.empty tr m ∧
    labels tr = [⟨.makeQueue 0, none⟩, ⟨.enqueue 0 5 10, none⟩, ⟨.enqueue 0 7 11, none⟩, ⟨.removeNode 0 7, none⟩,
      ⟨.enqueue 0 9 12, none⟩] ∧
    m.queues 0 = some x ∧ Linked m.nodes x l ∧ values l = [5, 9] := by
  have h0 : queueLib.Run Memory.empty [] Memory.empty := .nil _
  have h1 := h0.snoc (queueLib_step (.makeQueue 0) 0 rfl rfl)
  have h2 := h1.snoc (queueLib_step (.enqueue 0 5 10) 0 rfl rfl)
  have h3 := h2.snoc (queueLib_step (.enqueue 0 7 11) 0 rfl rfl)
  have h4 := h3.snoc (queueLib_step (.removeNode 0 7) 3 trivial rfl)
  have h5 := h4.snoc (queueLib_step (.enqueue 0 9 12) 0 rfl rfl)
  have p0 : AllProper [] := by
    intro pre e post h
    simp at h
  have p1 := p0.snoc (e := ⟨.makeQueue 0, none⟩) trivial
  have p2 := p1.snoc (e := ⟨.enqueue 0 5 10, none⟩) ⟨[], rfl, by decide⟩
  have p3 := p2.snoc (e := ⟨.enqueue 0 7 11, none⟩) ⟨[5], rfl, by decide⟩
  have p4 := p3.snoc (e := ⟨.removeNode 0 7, none⟩) ⟨[5, 7], rfl⟩
  have p5 := p4.snoc (e := ⟨.enqueue 0 9 12, none⟩) ⟨[5], rfl, by decide⟩
  obtain ⟨l, hl, hlist, -⟩ := (queues_refine h5 p5).2.1 0 _ rfl
  exact ⟨_, _, _, l, h5, rfl, rfl, hl, (Option.some.inj hlist).symm⟩

end Threads
end Csc501

/-
# The library in memory is the library

Each queue of `mythread.c` is at an address of its own, and the list of threads linked
from there is the list `Threads.Sched` has (`Owns`); the other fields of the threads and
the semaphores are the same (`InMemory`). Call by call the library in memory does what the
library does, or gives up for want of fuel or because `malloc` would return an address in
use (`exec_follows`). So it has no run the library does not have, and an assertion of
`queue.h` never fails in it (`library_in_memory`).

No queue is longer than there are threads, so that much fuel is enough for every loop.

Key definitions: `Owner`, `Owns`, `InMemory`, `Addresses.Fresh`, `reply`.
Key theorems: `Owns.update`, `Owns.add`, `Owns.remove`, `enqueue_follows`, `getNextThread_follows`,
`exec_follows`, `machine_simulates`, `library_in_memory`.
-/
import Csc501.Lib.Simulation
import Csc501.Threads.JoinResult
import Csc501.Threads.Pointers
import Csc501.Threads.Spawn

namespace Csc501
namespace Threads

open Lib

/-! ### Who has which queue -/

/-- What a queue belongs to. -/
inductive Owner
  | ready
  | blocked
  | children (t : Tid)
  | waiters (m : Sid)
  deriving DecidableEq

/-- The address of a queue. Once the main program goes on, the queues of the scheduler are
freed. -/
def Machine.queue (σ : Machine) : Owner → Option ℕ
  | .ready => σ.currentThread.map fun _ => σ.readyQueue
  | .blocked => σ.currentThread.map fun _ => σ.blockedQueue
  | .children t => (σ.threads t).map ThreadCell.children
  | .waiters m => (σ.sems m).map SemaphoreCell.waitQueue

/-- The threads in a queue. -/
def State.queue (s : State) : Owner → Queue
  | .ready => s.readyQueue
  | .blocked => s.blockedQueue
  | .children t => (s.threads t).children
  | .waiters m => s.waitQueue m

/-- One queue is changed. -/
def State.setQueue (s : State) (l : Queue) : Owner → State
  | .ready => { s with readyQueue := l }
  | .blocked => { s with blockedQueue := l }
  | .children t => s.modify t fun x => { x with children := l }
  | .waiters m => s.setSem m ((s.sems m).map fun x => { x with waitQueue := l })

/-- The queues in memory are those at the addresses `pos`, each at another one, and they
hold `lists`. -/
structure Owns (mem : Memory) (pos : Owner → Option ℕ) (lists : Owner → Queue) (f : Lists) : Prop where
  represents : Represents mem f
  list : ∀ o q, pos o = some q → f q = some (lists o)
  apart : ∀ o o' q, pos o = some q → pos o' = some q → o = o'
  owned : ∀ q, f q ≠ none → ∃ o, pos o = some q

section Ownership

variable {mem mem' : Memory} {pos : Owner → Option ℕ} {lists : Owner → Queue} {f : Lists} {o : Owner} {q : ℕ}

theorem owns_empty (lists : Owner → Queue) : Owns Memory.empty (fun _ => none) lists fun _ => none where
  represents := represents_empty
  list o q h := by cases h
  apart o o' q h := by cases h
  owned q h := absurd rfl h

/-- **One queue changes.** -/
theorem Owns.update (H : Owns mem pos lists f) (ho : pos o = some q) {l : Queue}
    (hR : Represents mem' (Function.update f q (some l))) :
    Owns mem' pos (Function.update lists o l) (Function.update f q (some l)) where
  represents := hR
  list o' q' h := by
    by_cases hne : o' = o
    · subst hne
      obtain rfl := Option.some.inj (ho.symm.trans h)
      simp
    · have hq : q' ≠ q := by
        rintro rfl
        exact hne (H.apart o' o q' h ho)
      rw [Function.update_of_ne hq, Function.update_of_ne hne]
      exact H.list o' q' h
  apart := H.apart
  owned q' h := by
    by_cases hne : q' = q
    · exact ⟨o, hne ▸ ho⟩
    · rw [Function.update_of_ne hne] at h
      exact H.owned q' h

/-- **A queue is added.** -/
theorem Owns.add (H : Owns mem pos lists f) (ho : pos o = none) (hq : mem.queues q = none) :
    Owns ⟨mem.nodes, Function.update mem.queues q (some ⟨none, none⟩)⟩ (Function.update pos o (some q))
      (Function.update lists o []) (Function.update f q (some [])) := by
  have hf : f q = none := by
    obtain ⟨L, hL⟩ := H.represents
    exact (hL.free q hq).1
  -- no owner has the address
  have hpos : ∀ o', pos o' ≠ some q := fun o' h => absurd ((H.list o' q h).symm.trans hf) (by simp)
  constructor
  · obtain ⟨L, hL⟩ := H.represents
    exact ⟨_, hL.update (linked_nil mem.nodes) List.nodup_nil (by simp) fun _ _ _ => rfl⟩
  · intro o' q' h
    by_cases hne : o' = o
    · subst hne
      obtain rfl : q = q' := by simpa using h
      simp
    · rw [Function.update_of_ne hne] at h ⊢
      have hqq : q' ≠ q := by
        rintro rfl
        exact hpos o' h
      rw [Function.update_of_ne hqq]
      exact H.list o' q' h
  · intro o₁ o₂ q' h₁ h₂
    by_cases h1 : o₁ = o
    · subst h1
      obtain rfl : q = q' := by simpa using h₁
      by_contra hne
      rw [Function.update_of_ne (Ne.symm hne)] at h₂
      exact hpos o₂ h₂
    · by_cases h2 : o₂ = o
      · subst h2
        obtain rfl : q = q' := by simpa using h₂
        rw [Function.update_of_ne h1] at h₁
        exact absurd h₁ (hpos o₁)
      · rw [Function.update_of_ne h1] at h₁
        rw [Function.update_of_ne h2] at h₂
        exact H.apart o₁ o₂ q' h₁ h₂
  · intro q' h
    by_cases hne : q' = q
    · exact ⟨o, by simp [hne]⟩
    · rw [Function.update_of_ne hne] at h
      obtain ⟨o', ho'⟩ := H.owned q' h
      refine ⟨o', ?_⟩
      rw [Function.update_of_ne, ho']
      rintro rfl
      exact absurd (ho.symm.trans ho') (by simp)

/-- **An empty queue is freed.** -/
theorem Owns.remove (H : Owns mem pos (Function.update lists o []) f) (ho : pos o = some q) :
    Owns ⟨mem.nodes, Function.update mem.queues q none⟩ (Function.update pos o none) lists
      (Function.update f q none) := by
  constructor
  · obtain ⟨L, hL⟩ := H.represents
    have hq := H.list o q ho
    rw [Function.update_self] at hq
    obtain ⟨x, hx, hlink, hv, -⟩ := hL.queue hq
    have hLq : L q = [] := List.map_eq_nil_iff.mp hv
    refine ⟨L, ?_, ?_, hL.apart⟩
    · intro r hr
      by_cases hne : r = q
      · subst hne
        exact ⟨by simp, hLq⟩
      · simp only [Function.update_of_ne hne] at hr ⊢
        exact hL.free r hr
    · intro r y hr
      have hne : r ≠ q := by
        rintro rfl
        simp at hr
      simp only [Function.update_of_ne hne] at hr ⊢
      exact hL.linked r y hr
  · intro o' q' h
    have hne : o' ≠ o := by
      rintro rfl
      simp at h
    rw [Function.update_of_ne hne] at h
    have hqq : q' ≠ q := by
      rintro rfl
      exact hne (H.apart o' o q' h ho)
    rw [Function.update_of_ne hqq, H.list o' q' h, Function.update_of_ne hne]
  · intro o₁ o₂ q' h₁ h₂
    have h1 : o₁ ≠ o := by
      rintro rfl
      simp at h₁
    have h2 : o₂ ≠ o := by
      rintro rfl
      simp at h₂
    rw [Function.update_of_ne h1] at h₁
    rw [Function.update_of_ne h2] at h₂
    exact H.apart o₁ o₂ q' h₁ h₂
  · intro q' h
    have hne : q' ≠ q := by
      rintro rfl
      simp at h
    rw [Function.update_of_ne hne] at h
    obtain ⟨o', ho'⟩ := H.owned q' h
    refine ⟨o', ?_⟩
    rw [Function.update_of_ne, ho']
    rintro rfl
    exact hne (Option.some.inj (ho'.symm.trans ho))

/-- A queue as it is in memory. -/
theorem Owns.linked (H : Owns mem pos lists f) (ho : pos o = some q) :
    ∃ x l, mem.queues q = some x ∧ Linked mem.nodes x l ∧ values l = lists o ∧ (lists o).Nodup := by
  obtain ⟨L, hL⟩ := H.represents
  obtain ⟨x, hx, hl, hv, hnd⟩ := hL.queue (H.list o q ho)
  exact ⟨x, L q, hx, hl, hv, hnd⟩

/-- A call of `queue.h` on the queue of one owner. -/
theorem Owns.call (H : Owns mem pos lists f) (ho : pos o = some q) (call : QueueCall) (l : Queue)
    (hfresh : Fresh mem call) (hp : Proper f call) (hl : listCall f call = Function.update f q (some l)) :
    ∃ mem' n, (∀ fuel, execQueue fuel mem call = if n ≤ fuel then some (mem', listReturns f call) else none) ∧
      ∃ f', Owns mem' pos (Function.update lists o l) f' := by
  obtain ⟨mem', n, hrun, hR⟩ := execQueue_refines H.represents hfresh hp
  rw [hl] at hR
  exact ⟨mem', n, hrun, _, H.update ho hR⟩

theorem Owns.enqueue (H : Owns mem pos lists f) (ho : pos o = some q) {t : Tid} (ht : t ∉ lists o) {node : ℕ}
    (hnode : mem.nodes node = none) : ∃ mem', execQueue 0 mem (.enqueue q t node) = some (mem', none) ∧
      ∃ f', Owns mem' pos (Function.update lists o (enqueue (lists o) t)) f' := by
  have hq := H.list o q ho
  obtain ⟨mem', n, hrun, hO⟩ := H.call ho (.enqueue q t node) (Threads.enqueue (lists o) t) hnode
    ⟨lists o, hq, ht⟩ (by simp [listCall, hq])
  refine ⟨mem', ?_, hO⟩
  calc execQueue 0 mem (.enqueue q t node) = execQueue n mem (.enqueue q t node) := rfl
    _ = some (mem', none) := by rw [hrun, if_pos le_rfl]; rfl

theorem Owns.dequeue (H : Owns mem pos lists f) (ho : pos o = some q) :
    ∃ mem', execQueue 0 mem (.dequeue q) = some (mem', (dequeue (lists o)).1) ∧
      ∃ f', Owns mem' pos (Function.update lists o (dequeue (lists o)).2) f' := by
  have hq := H.list o q ho
  obtain ⟨mem', n, hrun, hO⟩ := H.call ho (.dequeue q) (Threads.dequeue (lists o)).2 trivial
    ⟨lists o, hq⟩ (by simp [listCall, hq])
  refine ⟨mem', ?_, hO⟩
  calc execQueue 0 mem (.dequeue q) = execQueue n mem (.dequeue q) := rfl
    _ = some (mem', (Threads.dequeue (lists o)).1) := by rw [hrun, if_pos le_rfl]; simp [listReturns, hq]

/-- `remove_node` needs more fuel than there are threads in the queue. -/
theorem Owns.removeNode (H : Owns mem pos lists f) (ho : pos o = some q) (t : Tid) :
    ∃ mem', (∀ fuel, execQueue fuel mem (.removeNode q t) =
        if (lists o).length < fuel then some (mem', none) else none) ∧
      ∃ f', Owns mem' pos (Function.update lists o (removeNode (lists o) t)) f' := by
  have hq := H.list o q ho
  obtain ⟨mem', n, hrun, hO⟩ := H.call ho (.removeNode q t) (Threads.removeNode (lists o) t) trivial
    ⟨lists o, hq⟩ (by simp [listCall, hq])
  refine ⟨mem', ?_, hO⟩
  obtain ⟨x, l, hx, hlink, hv, hnd⟩ := H.linked ho
  rw [← hv] at hnd
  obtain ⟨h', x', -, hloop, -⟩ := hlink.remove hnd t
  have hlen : l.length = (lists o).length := by rw [← hv, values, List.length_map]
  intro fuel
  by_cases hfuel : (lists o).length < fuel
  · have hsome : (execQueue fuel mem (.removeNode q t)).isSome := by
      simp [execQueue, hx, hloop, hlen, hfuel]
    rw [hrun] at hsome ⊢
    split_ifs at hsome ⊢
    · rfl
    · simp at hsome
  · rw [if_neg hfuel]
    simp [execQueue, hx, hloop, hlen, hfuel]

/-- `free_queue` takes the threads off one by one, and needs more fuel than there are. -/
theorem Owns.freeLoop : ∀ (fuel : ℕ) {mem : Memory} {lists : Owner → Queue} {f : Lists}, Owns mem pos lists f →
    pos o = some q → ∀ l, lists o = l →
    ∃ mem', Machine.freeLoop fuel mem q = (if l.length < fuel then some mem' else none) ∧
      ∃ f', Owns mem' pos (Function.update lists o []) f'
  | fuel, mem, lists, f, H, ho, [], hl => by
    obtain ⟨x, k, hx, hlink, hv, -⟩ := H.linked ho
    have hk : k = [] := List.map_eq_nil_iff.mp (hv.trans hl)
    subst hk
    have hhead : x.head = none := hlink.chain
    refine ⟨mem, ?_, f, ?_⟩
    · cases fuel with
      | zero => rfl
      | succ fuel => simp [Machine.freeLoop, hx, hhead]
    · rw [← hl, Function.update_eq_self]
      exact H
  | 0, mem, lists, f, H, ho, t :: l, hl => by
    obtain ⟨mem', -, f', hO⟩ := H.dequeue ho
    obtain ⟨mem'', -, hO'⟩ := Owns.freeLoop (l.length + 1) hO ho l (by simp [hl, Threads.dequeue])
    rw [Function.update_idem] at hO'
    exact ⟨mem'', rfl, hO'⟩
  | fuel + 1, mem, lists, f, H, ho, t :: l, hl => by
    obtain ⟨x, k, hx, hlink, hv, -⟩ := H.linked ho
    have hhead : x.head ≠ none := by
      rw [hlink.head_eq, ne_eq, List.head?_eq_none_iff]
      intro hk
      rw [hl, List.map_eq_nil_iff.mp hk] at hv
      cases hv
    obtain ⟨mem', hde, f', hO⟩ := H.dequeue ho
    obtain ⟨mem'', hloop, hO'⟩ := Owns.freeLoop fuel hO ho l (by simp [hl, Threads.dequeue])
    refine ⟨mem'', ?_, ?_⟩
    · simp only [Machine.freeLoop, hx, hde, hhead, Option.bind_eq_bind, Option.bind_some, if_false, hloop,
        List.length_cons, Nat.add_lt_add_iff_right]
    · rwa [Function.update_idem] at hO'

/-- The loop of `size` gives up or counts the nodes. -/
theorem sizeLoop_follows {h : Heap Tid} : ∀ {l : List (ℕ × Tid)} {p : Option ℕ} (fuel n : ℕ), Chain h p l none →
    Follows (l.length < fuel) Eq (LinkedQueue.sizeLoop h fuel p n) (some (n + l.length))
  | l, p, 0, n, _ => .gaveUp (Nat.not_lt_zero _)
  | [], p, fuel + 1, n, hc => by
    obtain rfl : p = none := hc
    exact .both rfl
  | (a, t) :: l, p, fuel + 1, n, ⟨hp, k, hk, hc⟩ => by
    subst hp
    have hrest := sizeLoop_follows fuel (n + 1) hc
    rw [Nat.add_right_comm] at hrest
    simp only [LinkedQueue.sizeLoop, hk, Option.bind_eq_bind, Option.bind_some]
    exact hrest.mono (Nat.add_lt_add_iff_right.mp ·)

/-- The loop of `contains` gives up or says whether the thread is there. -/
theorem containsLoop_follows {h : Heap Tid} (t : Tid) : ∀ {l : List (ℕ × Tid)} {p : Option ℕ} (fuel : ℕ),
    Chain h p l none →
    Follows (l.length < fuel) Eq (LinkedQueue.containsLoop h t fuel p) (some (contains (values l) t))
  | l, p, 0, _ => .gaveUp (Nat.not_lt_zero _)
  | [], p, fuel + 1, hc => by
    obtain rfl : p = none := hc
    exact .both rfl
  | (a, u) :: l, p, fuel + 1, ⟨hp, k, hk, hc⟩ => by
    subst hp
    simp only [LinkedQueue.containsLoop, hk, Option.bind_eq_bind, Option.bind_some]
    by_cases hu : u = t
    · rw [if_pos hu]
      exact .both (by simp [contains, hu])
    · have hrest := containsLoop_follows t fuel hc
      rw [if_neg hu, values_cons, show contains (u :: values l) t = contains (values l) t by simp [contains, hu]]
      exact hrest.mono (Nat.add_lt_add_iff_right.mp ·)

end Ownership

/-! ### What is free stays free -/

section Free

variable {h h' : Heap Tid} {x x' : LinkedQueue} {b : ℕ}

theorem update_free {a : ℕ} {c : Node Tid} (y : Option (Node Tid)) (ha : h a = some c) (hb : h b = none) :
    Function.update h a y b = none := by
  rw [Function.update_of_ne, hb]
  rintro rfl
  exact absurd (ha.symm.trans hb) (by simp)

theorem enqueue_free {t : Tid} {node : ℕ} (he : x.enqueue h t node = some (h', x')) (hb : h b = none)
    (hne : b ≠ node) : h' b = none := by
  have hb' : (Function.update h node (some ⟨t, none⟩) : Heap Tid) b = none := by rw [Function.update_of_ne hne, hb]
  unfold LinkedQueue.enqueue at he
  split at he
  · obtain ⟨rfl, -⟩ := Prod.mk.inj (Option.some.inj he)
    exact hb'
  · simp only [Option.bind_eq_bind, Option.bind_eq_some_iff, Option.some.injEq, Prod.mk.injEq] at he
    obtain ⟨-, -, -, -, a, -, c, hc, rfl, -⟩ := he
    exact update_free _ hc hb'

theorem dequeue_free {r : Option Tid} (he : x.dequeue h = some (h', x', r)) (hb : h b = none) : h' b = none := by
  unfold LinkedQueue.dequeue at he
  split at he
  · obtain ⟨rfl, -⟩ := Prod.mk.inj (Option.some.inj he)
    exact hb
  · simp only [Option.bind_eq_bind, Option.bind_eq_some_iff, Option.some.injEq, Prod.mk.injEq] at he
    obtain ⟨-, -, -, -, c, hc, rfl, -⟩ := he
    exact update_free _ hc hb

theorem unlink_free {last : Option ℕ} {a : ℕ} {c : Node Tid} (he : x.unlink h last a c = some (h', x'))
    (hb : h b = none) : h' b = none := by
  unfold LinkedQueue.unlink at he
  split_ifs at he
  · obtain ⟨rfl, -⟩ := Prod.mk.inj (Option.some.inj he)
    exact hb
  · simp only [Option.bind_eq_bind, Option.bind_eq_some_iff, Option.some.injEq, Prod.mk.injEq] at he
    obtain ⟨a', -, d, hd, rfl, -⟩ := he
    exact update_free _ hd hb
  · obtain ⟨rfl, -⟩ := Prod.mk.inj (Option.some.inj he)
    exact hb
  · simp only [Option.bind_eq_bind, Option.bind_eq_some_iff, Option.some.injEq, Prod.mk.injEq] at he
    obtain ⟨a', -, d, hd, rfl, -⟩ := he
    exact update_free _ hd hb

theorem removeLoop_free {t : Tid} : ∀ {fuel : ℕ} {h : Heap Tid} {x : LinkedQueue} {last p : Option ℕ},
    LinkedQueue.removeLoop t fuel h x last p = some (h', x') → h b = none → h' b = none
  | fuel + 1, h, x, last, none, he, hb => by
    obtain ⟨rfl, -⟩ := Prod.mk.inj (Option.some.inj he)
    exact hb
  | fuel + 1, h, x, last, some a, he, hb => by
    simp only [LinkedQueue.removeLoop, Option.bind_eq_bind, Option.bind_eq_some_iff] at he
    obtain ⟨c, -, he⟩ := he
    split at he
    · obtain ⟨⟨h₁, x₁⟩, hun, he⟩ := Option.bind_eq_some_iff.mp he
      obtain ⟨c₁, -, hrest⟩ := Option.bind_eq_some_iff.mp he
      exact removeLoop_free hrest (unlink_free hun hb)
    · rw [Option.bind_some] at he
      obtain ⟨c₁, -, hrest⟩ := Option.bind_eq_some_iff.mp he
      exact removeLoop_free hrest hb

/-- A call of `queue.h` allocates no node but the one that it enqueues. -/
theorem execQueue_free {fuel : ℕ} {m m' : Memory} {call : QueueCall} {r : Option Tid}
    (he : execQueue fuel m call = some (m', r)) (hb : m.nodes b = none) (hne : ∀ q t, call ≠ .enqueue q t b) :
    m'.nodes b = none := by
  cases call with
  | makeQueue q =>
    obtain ⟨rfl, -⟩ := Prod.mk.inj (Option.some.inj he)
    exact hb
  | enqueue q t node =>
    simp only [execQueue, Option.bind_eq_bind, Option.bind_eq_some_iff, Prod.exists, Option.some.injEq,
      Prod.mk.injEq] at he
    obtain ⟨x, -, h', x', hen, rfl, -⟩ := he
    refine enqueue_free hen hb ?_
    rintro rfl
    exact hne q t rfl
  | dequeue q =>
    simp only [execQueue, Option.bind_eq_bind, Option.bind_eq_some_iff, Prod.exists, Option.some.injEq,
      Prod.mk.injEq] at he
    obtain ⟨x, -, h', x', r', hde, rfl, -⟩ := he
    exact dequeue_free hde hb
  | removeNode q t =>
    simp only [execQueue, Option.bind_eq_bind, Option.bind_eq_some_iff, Prod.exists, Option.some.injEq,
      Prod.mk.injEq] at he
    obtain ⟨x, -, h', x', hre, rfl, -⟩ := he
    exact removeLoop_free hre hb

end Free

/-! ### The library in memory -/

/-- **The machine is in the state `s`.** -/
structure InMemory (σ : Machine) (s : State) : Prop where
  owns : ∃ f, Owns σ.mem σ.queue s.queue f
  below : ∀ o, ∀ t ∈ s.queue o, t < s.made
  threads : ∀ t, (σ.threads t).isSome ↔ t < s.made
  cell : ∀ t x, σ.threads t = some x → x.parent = (s.threads t).parent ∧ x.waitingFor = (s.threads t).waitingFor
  sems : ∀ m, (σ.sems m).map SemaphoreCell.count = (s.sems m).map Semaphore.count
  made : σ.made = s.made
  semsMade : σ.semsMade = s.semsMade
  current : σ.currentThread = s.currentThread

section Operations

variable {σ : Machine} {s : State} {o : Owner} {q fuel : ℕ} {c t : Tid}

theorem setQueue_queue (s : State) (l : Queue) (o : Owner) (ho : ∀ m, o = .waiters m → (s.sems m).isSome) :
    (s.setQueue l o).queue = Function.update s.queue o l := by
  funext o'
  cases o with
  | ready => cases o' <;> simp [State.setQueue, State.queue, State.waitQueue]
  | blocked => cases o' <;> simp [State.setQueue, State.queue, State.waitQueue]
  | children t =>
    cases o' with
    | children u =>
      by_cases hu : u = t
      · subst hu
        simp [State.setQueue, State.queue, State.modify]
      · simp [State.setQueue, State.queue, State.modify, hu]
    | _ => simp [State.setQueue, State.queue, State.waitQueue, State.modify]
  | waiters m =>
    obtain ⟨y, hy⟩ := Option.isSome_iff_exists.mp (ho m rfl)
    cases o' with
    | waiters n =>
      by_cases hn : n = m
      · subst hn
        simp [State.setQueue, State.queue, State.waitQueue, State.setSem, hy]
      · simp [State.setQueue, State.queue, State.waitQueue, State.setSem, hn]
    | _ => simp [State.setQueue, State.queue, State.setSem]

theorem InMemory.waiters (H : InMemory σ s) (ho : σ.queue o = some q) (m : Sid) (hm : o = .waiters m) :
    (s.sems m).isSome := by
  subst hm
  have h := H.sems m
  cases hx : s.sems m with
  | some y => rfl
  | none =>
    rw [hx, Option.map_none, Option.map_eq_none_iff] at h
    simp [Machine.queue, h] at ho

/-- A queue is changed, in memory and in the list. -/
theorem InMemory.setQueue (H : InMemory σ s) (ho : σ.queue o = some q) {mem : Memory} {l : Queue}
    (hO : ∃ f, Owns mem σ.queue (Function.update s.queue o l) f) (hl : ∀ t ∈ l, t < s.made) :
    InMemory { σ with mem := mem } (s.setQueue l o) := by
  have hq := setQueue_queue s l o (H.waiters ho)
  have hmade : (s.setQueue l o).made = s.made := by cases o <;> rfl
  have hthread : ∀ t, ((s.setQueue l o).threads t).parent = (s.threads t).parent ∧
      ((s.setQueue l o).threads t).waitingFor = (s.threads t).waitingFor := by
    intro t
    cases o with
    | children u =>
      by_cases hu : t = u
      · subst hu
        simp [State.setQueue, State.modify]
      · simp [State.setQueue, State.modify, hu]
    | _ => exact ⟨rfl, rfl⟩
  constructor
  · rw [hq]
    exact hO
  · rw [hq, hmade]
    intro o' t ht
    by_cases hne : o' = o
    · subst hne
      rw [Function.update_self] at ht
      exact hl t ht
    · rw [Function.update_of_ne hne] at ht
      exact H.below o' t ht
  · rw [hmade]
    exact H.threads
  · intro t x hx
    rw [(hthread t).1, (hthread t).2]
    exact H.cell t x hx
  · intro m
    rw [show ({ σ with mem := mem } : Machine).sems m = σ.sems m from rfl, H.sems m]
    cases o with
    | waiters n =>
      by_cases hn : m = n
      · subst hn
        simp [State.setQueue, State.setSem, Function.comp_def]
      · simp [State.setQueue, State.setSem, hn]
    | _ => rfl
  · rw [hmade]
    exact H.made
  · rw [show (s.setQueue l o).semsMade = s.semsMade by cases o <;> rfl]
    exact H.semsMade
  · rw [show (s.setQueue l o).currentThread = s.currentThread by cases o <;> rfl]
    exact H.current

/-- No queue is longer than there are threads. -/
theorem InMemory.length_le (H : InMemory σ s) (ho : σ.queue o = some q) : (s.queue o).length ≤ s.made := by
  obtain ⟨f, hO⟩ := H.owns
  obtain ⟨-, -, -, -, -, hnd⟩ := hO.linked ho
  calc (s.queue o).length = (s.queue o).toFinset.card := (List.toFinset_card_of_nodup hnd).symm
    _ ≤ (Finset.range s.made).card := by
      apply Finset.card_le_card
      intro t ht
      exact Finset.mem_range.mpr (H.below o t (List.mem_toFinset.mp ht))
    _ = s.made := Finset.card_range s.made

/-- Only the queues of `σ` have changed; no node is allocated but `used`. -/
def Becomes (σ : Machine) (used : Option ℕ) (σ' : Machine) (s' : State) : Prop :=
  ∃ mem, σ' = { σ with mem := mem } ∧ InMemory σ' s' ∧ ∀ b, σ.mem.nodes b = none → used ≠ some b → mem.nodes b = none

theorem enqueue_follows (H : InMemory σ s) (ho : σ.queue o = some q) (ht : t ∉ s.queue o) (hm : t < s.made)
    (node : ℕ) : Follows (σ.mem.nodes node = none) (Becomes σ (some node)) (σ.enqueue q t node)
      (some (s.setQueue (enqueue (s.queue o) t) o)) := by
  by_cases hnode : σ.mem.nodes node = none
  · obtain ⟨f, hO⟩ := H.owns
    obtain ⟨mem, hen, hO'⟩ := hO.enqueue ho ht hnode
    have heq : σ.enqueue q t node = some { σ with mem := mem } := by simp [Machine.enqueue, hnode, hen]
    rw [heq]
    refine .both ⟨mem, rfl, H.setQueue ho hO' ?_, ?_⟩
    · intro u hu
      rcases mem_enqueue.mp hu with hu | rfl
      · exact H.below o u hu
      · exact hm
    · intro b hb hne
      apply execQueue_free hen hb
      rintro q' t' ⟨⟩
      exact hne rfl
  · have heq : σ.enqueue q t node = none := by simp [Machine.enqueue, hnode]
    rw [heq]
    exact .gaveUp hnode

theorem dequeue_becomes (H : InMemory σ s) (ho : σ.queue o = some q) :
    ∃ σ', σ.dequeue q = some ((dequeue (s.queue o)).1, σ') ∧
      Becomes σ none σ' (s.setQueue (dequeue (s.queue o)).2 o) := by
  obtain ⟨f, hO⟩ := H.owns
  obtain ⟨mem, hde, hO'⟩ := hO.dequeue ho
  refine ⟨{ σ with mem := mem }, by simp [Machine.dequeue, hde], mem, rfl, H.setQueue ho hO' ?_, ?_⟩
  · intro t ht
    apply H.below o t
    cases hl : s.queue o with
    | nil => simp [hl, dequeue] at ht
    | cons u l =>
      rw [hl] at ht
      exact List.mem_cons_of_mem u ht
  · intro b hb _
    exact execQueue_free hde hb (by simp)

theorem removeNode_follows (H : InMemory σ s) (ho : σ.queue o = some q) (t : Tid) :
    Follows (s.made < fuel) (Becomes σ none) (σ.removeNode fuel q t)
      (some (s.setQueue (removeNode (s.queue o) t) o)) := by
  obtain ⟨f, hO⟩ := H.owns
  obtain ⟨mem, hrun, hO'⟩ := hO.removeNode ho t
  by_cases hfuel : (s.queue o).length < fuel
  · have hre : execQueue fuel σ.mem (.removeNode q t) = some (mem, none) := by rw [hrun, if_pos hfuel]
    have heq : σ.removeNode fuel q t = some { σ with mem := mem } := by simp [Machine.removeNode, hre]
    rw [heq]
    refine .both ⟨mem, rfl, H.setQueue ho hO' ?_, ?_⟩
    · intro u hu
      exact H.below o u (mem_removeNode.mp hu).1
    · intro b hb _
      exact execQueue_free hre hb (by simp)
  · have heq : σ.removeNode fuel q t = none := by simp [Machine.removeNode, hrun, hfuel]
    rw [heq]
    exact .gaveUp fun hlt => hfuel (lt_of_le_of_lt (H.length_le ho) hlt)

theorem isEmpty_eq (H : InMemory σ s) (ho : σ.queue o = some q) : σ.isEmpty q = some (isEmpty (s.queue o)) := by
  obtain ⟨f, hO⟩ := H.owns
  obtain ⟨x, l, hx, hlink, hv, -⟩ := hO.linked ho
  rw [← hv, ← hlink.isEmpty_eq]
  simp [Machine.isEmpty, hx]

/-- The queue is looked through, for a thread or for `NULL`. -/
theorem contains_follows (H : InMemory σ s) (ho : σ.queue o = some q) (thread : Option Tid) :
    Follows (s.made < fuel) Eq (σ.contains fuel q thread) (some (thread.any fun t => contains (s.queue o) t)) := by
  obtain ⟨f, hO⟩ := H.owns
  obtain ⟨x, l, hx, hlink, hv, -⟩ := hO.linked ho
  have hlen : s.made < fuel → l.length < fuel := by
    intro hlt
    have hle := H.length_le ho
    rw [← hv, values, List.length_map] at hle
    exact lt_of_le_of_lt hle hlt
  rw [← hv]
  cases thread with
  | none =>
    simp only [Machine.contains, hx, Option.bind_eq_bind, Option.bind_some]
    exact Follows.bind_some ((sizeLoop_follows fuel 0 hlink.chain).mono hlen) fun _ _ => .both rfl
  | some t =>
    simp only [Machine.contains, hx, Option.bind_eq_bind, Option.bind_some]
    exact (containsLoop_follows t fuel hlink.chain).mono hlen

/-- `free_queue`, for the queue of one owner. -/
theorem freeQueue_follows {pos : Owner → Option ℕ} {lists : Owner → Queue} {f : Lists} (σ : Machine)
    (hO : Owns σ.mem pos lists f) (ho : pos o = some q) :
    Follows ((lists o).length < fuel) (fun σ' _ => ∃ mem, σ' = { σ with mem := mem } ∧
      ∃ f', Owns mem (Function.update pos o none) lists f') (σ.freeQueue fuel q) (some ()) := by
  obtain ⟨mem', hloop, f', hO'⟩ := Owns.freeLoop fuel hO ho (lists o) rfl
  by_cases hlen : (lists o).length < fuel
  · rw [if_pos hlen] at hloop
    have heq : σ.freeQueue fuel q =
        some { σ with mem := ⟨mem'.nodes, Function.update mem'.queues q none⟩ } := by simp [Machine.freeQueue, hloop]
    rw [heq]
    exact .both ⟨_, rfl, _, hO'.remove ho⟩
  · rw [if_neg hlen] at hloop
    have heq : σ.freeQueue fuel q = none := by simp [Machine.freeQueue, hloop]
    rw [heq]
    exact .gaveUp hlen

/-- **`get_next_thread`.** If it finds no thread it frees the queues of the scheduler, with
the threads that are blocked. -/
theorem getNextThread_follows (H : InMemory σ s) (hcur : σ.currentThread = some c) :
    Follows (s.made < fuel) InMemory (σ.getNextThread fuel) (some (getNextThread s)) := by
  have hready : σ.queue .ready = some σ.readyQueue := by simp [Machine.queue, hcur]
  have hblocked : σ.queue .blocked = some σ.blockedQueue := by simp [Machine.queue, hcur]
  obtain ⟨σ₁, hde, mem, rfl, H₁, -⟩ := dequeue_becomes H hready
  have hlen := H.length_le hblocked
  unfold Machine.getNextThread
  rw [hde, Option.bind_eq_bind, Option.bind_some]
  cases hl : s.readyQueue with
  | cons t l =>
    have hq : s.queue .ready = t :: l := hl
    have hnext : getNextThread s = { s.setQueue l .ready with currentThread := some t } := by
      simp [getNextThread, hl, dequeue, State.setQueue]
    rw [hnext]
    simp only [hq, dequeue] at H₁ ⊢
    refine .both ⟨?_, H₁.below, H₁.threads, H₁.cell, H₁.sems, H₁.made, H₁.semsMade, rfl⟩
    have hpos : ({ σ with mem := mem, currentThread := some t } : Machine).queue = σ.queue := by
      funext o
      cases o <;> simp [Machine.queue, hcur]
    obtain ⟨f, hO⟩ := H₁.owns
    refine ⟨f, ?_⟩
    rw [hpos]
    exact hO
  | nil =>
    have hq : s.queue .ready = [] := hl
    have hnext : getNextThread s = { s.setQueue [] .ready with currentThread := none } := by
      simp [getNextThread, hl, dequeue, State.setQueue]
    rw [hnext]
    simp only [hq, dequeue] at H₁ ⊢
    obtain ⟨f, hO⟩ := H₁.owns
    have hO : Owns mem σ.queue (s.setQueue [] .ready).queue f := hO
    have hempty : s.made < fuel → ((s.setQueue [] .ready).queue .ready).length < fuel := Nat.zero_lt_of_lt
    refine Follows.bind_some ((freeQueue_follows { σ with mem := mem } hO hready).mono hempty) ?_
    rintro _ ⟨mem₁, rfl, f₁, hO₁⟩
    have hblocked₁ : Function.update σ.queue .ready none .blocked = some σ.blockedQueue := hblocked
    have hfew : s.made < fuel → ((s.setQueue [] .ready).queue .blocked).length < fuel := lt_of_le_of_lt hlen
    refine Follows.bind_some ((freeQueue_follows { σ with mem := mem₁ } hO₁ hblocked₁).mono hfew) ?_
    rintro _ ⟨mem₂, rfl, f₂, hO₂⟩
    refine .both ⟨⟨f₂, ?_⟩, H₁.below, H₁.threads, H₁.cell, H₁.sems, H₁.made, H₁.semsMade, rfl⟩
    have hpos : ({ σ with mem := mem₂, currentThread := none } : Machine).queue =
        Function.update (Function.update σ.queue .ready none) .blocked none := by
      funext o
      cases o <;> simp [Machine.queue]
    rw [hpos]
    exact hO₂

theorem modify_queue {g : Thread → Thread} (hg : (g (s.threads t)).children = (s.threads t).children) :
    (s.modify t g).queue = s.queue := by
  funext o
  cases o with
  | children u =>
    by_cases hu : u = t
    · subst hu
      simp [State.queue, State.modify, hg]
    · simp [State.queue, State.modify, hu]
  | _ => rfl

/-- A store in a thread that leaves its queue alone. -/
theorem InMemory.modify (H : InMemory σ s) (ht : t < s.made) {f : ThreadCell → ThreadCell} {g : Thread → Thread}
    (hf : ∀ x, (f x).children = x.children) (hg : ∀ x, (g x).children = x.children)
    (hfg : ∀ x y, x.parent = y.parent → x.waitingFor = y.waitingFor →
      (f x).parent = (g y).parent ∧ (f x).waitingFor = (g y).waitingFor) :
    ∃ σ', σ.modify t f = some σ' ∧ InMemory σ' (s.modify t g) ∧ σ'.mem = σ.mem := by
  obtain ⟨x, hx⟩ := Option.isSome_iff_exists.mp ((H.threads t).mpr ht)
  refine ⟨{ σ with threads := Function.update σ.threads t (some (f x)) }, by simp [Machine.modify, hx], ?_, rfl⟩
  have hpos : ({ σ with threads := Function.update σ.threads t (some (f x)) } : Machine).queue = σ.queue := by
    funext o
    cases o with
    | children u =>
      by_cases hu : u = t
      · subst hu
        simp [Machine.queue, hx, hf]
      · simp [Machine.queue, hu]
    | _ => rfl
  have hlists : (s.modify t g).queue = s.queue := modify_queue (hg _)
  constructor
  · rw [hpos, hlists]
    exact H.owns
  · rw [hlists]
    exact H.below
  · intro u
    by_cases hu : u = t
    · subst hu
      simpa [State.modify, hx] using H.threads u
    · simpa [State.modify, hu] using H.threads u
  · intro u y hy
    by_cases hu : u = t
    · subst hu
      obtain rfl : f x = y := by simpa using hy
      obtain ⟨hp, hw⟩ := H.cell u x hx
      simpa [State.modify] using hfg x (s.threads u) hp hw
    · simp only [State.modify, Function.update_of_ne hu] at hy ⊢
      exact H.cell u y hy
  · exact H.sems
  · exact H.made
  · exact H.semsMade
  · exact H.current

/-- A store in the count of a semaphore. -/
theorem InMemory.setCount (H : InMemory σ s) {m : Sid} {x : SemaphoreCell} {y : Semaphore} (hx : σ.sems m = some x)
    (hy : s.sems m = some y) (k : ℤ) :
    InMemory (σ.setSem m (some { x with count := k })) (s.setSem m (some { y with count := k })) := by
  have hpos : (σ.setSem m (some { x with count := k })).queue = σ.queue := by
    funext o
    cases o with
    | waiters n =>
      by_cases hn : n = m
      · subst hn
        simp [Machine.queue, Machine.setSem, hx]
      · simp [Machine.queue, Machine.setSem, hn]
    | _ => rfl
  have hlists : (s.setSem m (some { y with count := k })).queue = s.queue := by
    funext o
    cases o with
    | waiters n =>
      by_cases hn : n = m
      · subst hn
        simp [State.queue, State.waitQueue, State.setSem, hy]
      · simp [State.queue, State.waitQueue, State.setSem, hn]
    | _ => rfl
  constructor
  · rw [hpos, hlists]
    exact H.owns
  · rw [hlists]
    exact H.below
  · exact H.threads
  · exact H.cell
  · intro n
    by_cases hn : n = m
    · subst hn
      simp [Machine.setSem, State.setSem]
    · simpa [Machine.setSem, State.setSem, hn] using H.sems n
  · exact H.made
  · exact H.semsMade
  · exact H.current

/-- The thread behind a handle. -/
theorem InMemory.thread (H : InMemory σ s) (ht : t < s.made) : ∃ x, σ.threads t = some x ∧
    σ.queue (.children t) = some x.children ∧ x.parent = (s.threads t).parent ∧
      x.waitingFor = (s.threads t).waitingFor := by
  obtain ⟨x, hx⟩ := Option.isSome_iff_exists.mp ((H.threads t).mpr ht)
  exact ⟨x, hx, by simp [Machine.queue, hx], H.cell t x hx⟩

/-- The semaphore behind a handle, if it is not freed. -/
theorem InMemory.semaphore (H : InMemory σ s) (m : Sid) : (σ.sems m = none ∧ s.sems m = none) ∨
    ∃ x y, σ.sems m = some x ∧ s.sems m = some y ∧ x.count = y.count ∧ σ.queue (.waiters m) = some x.waitQueue ∧
      s.queue (.waiters m) = y.waitQueue := by
  have h := H.sems m
  cases hx : σ.sems m with
  | none => exact Or.inl ⟨rfl, by simpa [hx] using h.symm⟩
  | some x =>
    cases hy : s.sems m with
    | none => simp [hx, hy] at h
    | some y => exact Or.inr ⟨x, y, rfl, rfl, by simpa [hx, hy] using h, by simp [Machine.queue, hx],
        by simp [State.queue, State.waitQueue, hy]⟩

theorem InMemory.ready (H : InMemory σ s) (hcur : s.currentThread = some c) :
    σ.queue .ready = some σ.readyQueue := by
  simp [Machine.queue, H.current, hcur]

theorem InMemory.blocked (H : InMemory σ s) (hcur : s.currentThread = some c) :
    σ.queue .blocked = some σ.blockedQueue := by
  simp [Machine.queue, H.current, hcur]

theorem makeThread_queue (s : State) : (makeThread s).2.queue = Function.update s.queue (.children s.made) [] := by
  funext o
  cases o with
  | children t =>
    by_cases ht : t = s.made
    · subst ht
      simp [State.queue, makeThread, makeQueue]
    · simp [State.queue, makeThread, ht]
  | _ => simp [State.queue, makeThread, State.waitQueue]

theorem makeThread_follows (H : InMemory σ s) (q : ℕ) : Follows (σ.mem.queues q = none)
    (fun x y => ∃ σ', x = (y.1, σ') ∧ InMemory σ' y.2 ∧ σ'.mem.nodes = σ.mem.nodes) (σ.makeThread q)
      (some (makeThread s)) := by
  by_cases hq : σ.mem.queues q = none
  · obtain ⟨f, hO⟩ := H.owns
    have hnew : σ.queue (.children s.made) = none := by
      simpa [Machine.queue] using mt (H.threads s.made).mp (lt_irrefl _)
    have heq : σ.makeThread q = some (s.made, { σ with
        mem := ⟨σ.mem.nodes, Function.update σ.mem.queues q (some ⟨none, none⟩)⟩
        threads := Function.update σ.threads s.made (some ⟨none, q, none⟩)
        made := s.made + 1 }) := by
      simp [Machine.makeThread, Machine.makeQueue, hq, execQueue, H.made]
    have hpos : ({ σ with threads := Function.update σ.threads s.made (some ⟨none, q, none⟩) } : Machine).queue =
        Function.update σ.queue (.children s.made) (some q) := by
      funext o
      cases o with
      | children t =>
        by_cases ht : t = s.made
        · subst ht
          simp [Machine.queue]
        · simp [Machine.queue, ht]
      | _ => simp [Machine.queue]
    have hlists := makeThread_queue s
    rw [heq]
    refine .both ⟨_, rfl, ⟨⟨Function.update f q (some []), ?_⟩, ?_, ?_, ?_, H.sems, rfl, H.semsMade, H.current⟩, rfl⟩
    · rw [hlists]
      have hadd := hO.add hnew hq
      rw [← hpos] at hadd
      exact hadd
    · rw [hlists]
      intro o t ht
      apply Nat.lt_succ_of_lt
      by_cases hne : o = .children s.made
      · simp [hne] at ht
      · rw [Function.update_of_ne hne] at ht
        exact H.below o t ht
    · intro t
      rw [show (makeThread s).2.made = s.made + 1 from rfl, Nat.lt_succ_iff_lt_or_eq]
      by_cases ht : t = s.made
      · simp [ht]
      · simpa [ht] using H.threads t
    · intro t x hx
      by_cases ht : t = s.made
      · subst ht
        obtain rfl : ThreadCell.mk none q none = x := by simpa using hx
        simp [makeThread]
      · simp only [makeThread, Function.update_of_ne ht] at hx ⊢
        exact H.cell t x hx
  · have heq : σ.makeThread q = none := by simp [Machine.makeThread, Machine.makeQueue, hq]
    rw [heq]
    exact .gaveUp hq

end Operations

/-! ### The calls -/

/-- Addresses that `malloc` may return. -/
structure Addresses.Fresh (new : Addresses) (σ : Machine) : Prop where
  queue : σ.mem.queues new.queue = none
  node : σ.mem.nodes new.node = none
  node' : σ.mem.nodes new.node' = none
  distinct : new.node ≠ new.node'

section Calls

variable {σ : Machine} {s : State} {fuel : ℕ} {c t : Tid} {tr : Trace}

/-- A thread that is ready is nowhere else. -/
theorem Inv.ready_alone (hI : Inv tr s) (ht : t ∈ s.readyQueue) :
    s.currentThread ≠ some t ∧ t ∉ s.blockedQueue ∧ ∀ m, t ∉ s.waitQueue m := by
  have hp := hI.placed t
  rw [count_places] at hp
  have h1 : 0 < s.readyQueue.count t := List.count_pos_iff.mpr ht
  have h2 : s.currentThread.toList.count t + s.readyQueue.count t + s.blockedQueue.count t + waiting s t ≤ 1 := by
    split at hp <;> omega
  refine ⟨?_, ?_, ?_⟩
  · intro hcur
    rw [hcur] at h2
    simp at h2
    omega
  · intro hb
    have h3 : 0 < s.blockedQueue.count t := List.count_pos_iff.mpr hb
    omega
  · intro m hm
    have h3 : 0 < (s.waitQueue m).count t := List.count_pos_iff.mpr hm
    cases hx : s.sems m with
    | none => simp [State.waitQueue, hx] at hm
    | some x =>
      have h4 : (s.waitQueue m).count t ≤ waiting s t :=
        Finset.single_le_sum (f := fun n => (s.waitQueue n).count t) (fun _ _ => Nat.zero_le _)
          (Finset.mem_range.mpr (hI.sems m x hx).1)
      omega

/-- A thread gets a parent. -/
theorem InMemory.setParent (H : InMemory σ s) (ht : t < s.made) (p : Tid) :
    ∃ σ', σ.modify t (fun x => { x with parent := some p }) = some σ' ∧
      InMemory σ' (s.modify t fun x => { x with parent := some p }) ∧ σ'.mem = σ.mem :=
  H.modify ht (fun _ => rfl) (fun _ => rfl) fun _ _ _ hw => ⟨rfl, hw⟩

/-- A thread waits for another, or for none. -/
theorem InMemory.setWaiting (H : InMemory σ s) (ht : t < s.made) (w : Option Tid) :
    ∃ σ', σ.modify t (fun x => { x with waitingFor := w }) = some σ' ∧
      InMemory σ' (s.modify t fun x => { x with waitingFor := w }) ∧ σ'.mem = σ.mem :=
  H.modify ht (fun _ => rfl) (fun _ => rfl) fun _ _ hp _ => ⟨hp, rfl⟩

theorem create_follows {new : Addresses} (H : InMemory σ s) (hI : Inv tr s) (hcur : s.currentThread = some c) :
    Follows (new.Fresh σ ∧ s.made < fuel) (fun x y => ∃ σ', x = (y.1, σ') ∧ InMemory σ' y.2) (σ.myThreadCreate c new)
      (some (myThreadCreate s c)) := by
  have hc := (hI.running hcur).1
  refine Follows.bind_some ((makeThread_follows H new.queue).mono fun h => h.1.queue) ?_
  rintro _ ⟨σ₁, rfl, H₁, hnodes⟩
  have hnew : (makeThread s).1 < (makeThread s).2.made := Nat.lt_succ_self _
  obtain ⟨σ₂, hσ₂, H₂, hmem⟩ := H₁.setParent hnew c
  obtain ⟨y, hy, hqy, -⟩ := H₂.thread (show c < (makeThread s).2.made from Nat.lt_succ_of_lt hc)
  dsimp only
  rw [hσ₂, Option.bind_eq_bind, Option.bind_some, hy, Option.bind_eq_bind, Option.bind_some]
  -- it is new, so no queue has it
  have hfresh : ∀ o, s.made ∉ ((makeThread s).2.modify s.made fun x => { x with parent := some c }).queue o := by
    intro o ho
    rw [modify_queue rfl, makeThread_queue] at ho
    by_cases hne : o = .children s.made
    · simp [hne] at ho
    · rw [Function.update_of_ne hne] at ho
      exact lt_irrefl _ (H.below o s.made ho)
  refine Follows.bind_some ((enqueue_follows H₂ hqy (hfresh _) hnew new.node).mono ?_) ?_
  · intro h
    rw [hmem, hnodes]
    exact h.1.node
  · rintro _ ⟨mem, rfl, H₃, hfree⟩
    refine Follows.bind_some ((enqueue_follows H₃ (H₃.ready hcur) (hfresh .ready) hnew new.node').mono ?_) ?_
    · intro h
      apply hfree
      · rw [hmem, hnodes]
        exact h.1.node'
      · exact fun heq => h.1.distinct (Option.some.inj heq)
    · rintro _ ⟨mem', rfl, H₄, -⟩
      exact .both ⟨_, rfl, H₄⟩

/-- The running thread is put on a queue, and another one runs. -/
theorem park_follows {o : Owner} {q : ℕ} (fuel node : ℕ) (H : InMemory σ s) (ho : σ.queue o = some q) (hout : c ∉ s.queue o)
    (hc : c < s.made) (hcur : s.currentThread = some c) :
    Follows (σ.mem.nodes node = none ∧ s.made < fuel) InMemory
      (σ.enqueue q c node >>= fun σ => σ.getNextThread fuel)
      (some (getNextThread (s.setQueue (enqueue (s.queue o) c) o))) := by
  refine Follows.bind_some ((enqueue_follows H ho hout hc node).mono And.left) ?_
  rintro _ ⟨mem, rfl, H₁, -⟩
  have hmade : (s.setQueue (enqueue (s.queue o) c) o).made = s.made := by cases o <;> rfl
  refine (getNextThread_follows H₁ (H.current.trans hcur)).mono ?_
  rw [hmade]
  exact And.right

theorem yield_follows {new : Addresses} (H : InMemory σ s) (hI : Inv tr s) (hcur : s.currentThread = some c) :
    Follows (new.Fresh σ ∧ s.made < fuel) InMemory (σ.myThreadYield fuel c new) (some (myThreadYield s c)) := by
  have hout : c ∉ s.readyQueue := fun h => (hI.ready_alone h).1 hcur
  exact (park_follows fuel new.node H (H.ready hcur) hout (hI.running hcur).1 hcur).mono fun h => ⟨h.1.node, h.2⟩

theorem join_follows {new : Addresses} (H : InMemory σ s) (hI : Inv tr s) (hcur : s.currentThread = some c)
    (t : Tid) : Follows (new.Fresh σ ∧ s.made < fuel) (fun x y => ∃ σ', x = (y.1, σ') ∧ InMemory σ' y.2)
      (σ.myThreadJoin fuel c t new) (some (myThreadJoin s c t)) := by
  have hc := (hI.running hcur).1
  obtain ⟨x, hx, hq, -⟩ := H.thread hc
  unfold Machine.myThreadJoin
  rw [hx, Option.bind_eq_bind, Option.bind_some]
  refine Follows.bind_some ((contains_follows H hq (some t)).mono And.right) ?_
  rintro _ rfl
  unfold myThreadJoin
  by_cases ht : contains (s.threads c).children t = true
  · have ht' : (Option.any (fun t => contains (s.queue (.children c)) t) (some t)) = true := ht
    rw [if_neg (not_not.mpr ht), if_neg (not_not.mpr ht')]
    obtain ⟨σ₁, hσ₁, H₁, hmem₁⟩ := H.setParent (H.below (.children c) t ((contains_iff _ _).mp ht)) c
    obtain ⟨σ₂, hσ₂, H₂, hmem₂⟩ := H₁.setWaiting (t := c) hc (some t)
    rw [hσ₁, Option.bind_eq_bind, Option.bind_some, hσ₂, Option.bind_some, ← Option.bind_assoc]
    refine Follows.bind_some ((park_follows fuel new.node H₂ (H₂.blocked hcur) (hI.running_not_blocked hcur) hc hcur).mono ?_) ?_
    · intro h
      rw [hmem₂, hmem₁]
      exact ⟨h.1.node, h.2⟩
    · intro σ₃ H₃
      exact .both ⟨σ₃, rfl, H₃⟩
  · have ht' : ¬ (Option.any (fun t => contains (s.queue (.children c)) t) (some t)) = true := ht
    rw [if_pos ht, if_pos ht']
    exact .both ⟨σ, rfl, H⟩

theorem joinAll_follows {new : Addresses} (H : InMemory σ s) (hI : Inv tr s) (hcur : s.currentThread = some c) :
    Follows (new.Fresh σ ∧ s.made < fuel) InMemory (σ.myThreadJoinAll fuel c new) (some (myThreadJoinAll s c)) := by
  have hc := (hI.running hcur).1
  obtain ⟨x, hx, hq, -⟩ := H.thread hc
  unfold Machine.myThreadJoinAll myThreadJoinAll
  rw [hx, Option.bind_eq_bind, Option.bind_some, isEmpty_eq H hq, Option.bind_eq_bind, Option.bind_some]
  by_cases hnone : isEmpty (s.threads c).children = true
  · have hnone' : isEmpty (s.queue (.children c)) = true := hnone
    rw [if_neg (not_not.mpr hnone), if_neg (not_not.mpr hnone')]
    exact .both H
  · have hnone' : ¬ isEmpty (s.queue (.children c)) = true := hnone
    rw [if_pos hnone, if_pos hnone']
    exact (park_follows fuel new.node H (H.blocked hcur) (hI.running_not_blocked hcur) hc hcur).mono fun h => ⟨h.1.node, h.2⟩

theorem leaveParent_current (s : State) (c : Tid) : (leaveParent s c).currentThread = s.currentThread := by
  unfold leaveParent
  cases (s.threads c).parent <;> rfl

theorem leaveParent_follows (H : InMemory σ s) (hp : ∀ p, (s.threads c).parent = some p → p < s.made) :
    Follows (s.made < fuel) (fun σ' s' => InMemory σ' s' ∧ ∀ b, σ.mem.nodes b = none → σ'.mem.nodes b = none)
      (σ.leaveParent fuel c (s.threads c).parent) (some (leaveParent s c)) := by
  cases hpar : (s.threads c).parent with
  | none =>
    have heq : leaveParent s c = s := by simp [leaveParent, hpar]
    rw [heq]
    exact .both ⟨H, fun _ h => h⟩
  | some p =>
    obtain ⟨x, hx, hq, -⟩ := H.thread (hp p hpar)
    have heq : leaveParent s c = s.setQueue (removeNode (s.queue (.children p)) c) (.children p) := by
      simp [leaveParent, hpar, State.setQueue, State.modify, State.queue]
    rw [heq]
    simp only [Machine.leaveParent, hx, Option.bind_eq_bind, Option.bind_some]
    refine (removeNode_follows H hq c).imp ?_
    rintro _ s' ⟨mem, rfl, H', hfree⟩
    exact ⟨H', fun b hb => hfree b hb (by simp)⟩

theorem wakeParent_follows (fuel : ℕ) (new : Addresses) (H : InMemory σ s) (hcur : s.currentThread = some c)
    (hp : ∀ p, (s.threads c).parent = some p → p < s.made ∧ (p ∈ s.blockedQueue → p ∉ s.readyQueue)) :
    Follows (σ.mem.nodes new.node = none ∧ s.made < fuel) InMemory
      (σ.wakeParent fuel c (s.threads c).parent new) (some (wakeParent s c)) := by
  unfold Machine.wakeParent wakeParent
  refine Follows.bind_some ((contains_follows H (H.blocked hcur) _).mono And.right) ?_
  rintro _ rfl
  cases hpar : (s.threads c).parent with
  | none => exact .both H
  | some p =>
    obtain ⟨hlt, hready⟩ := hp p hpar
    by_cases hb : contains s.blockedQueue p = true
    · have hb' : (Option.any (fun t => contains (s.queue .blocked) t) (some p)) = true := hb
      obtain ⟨x, hx, hq, -, hw⟩ := H.thread hlt
      simp only [if_pos hb, if_pos hb', hx, isEmpty_eq H hq, hw, Option.bind_eq_bind, Option.bind_some]
      by_cases hwake : (isEmpty (s.threads p).children || (s.threads p).waitingFor == some c) = true
      · have hwake' : (isEmpty (s.queue (.children p)) || (s.threads p).waitingFor == some c) = true := hwake
        rw [if_pos hwake, if_pos hwake']
        refine Follows.bind_some ((removeNode_follows H (H.blocked hcur) p).mono And.right) ?_
        rintro _ ⟨mem, rfl, H₁, hfree⟩
        obtain ⟨σ₂, hσ₂, H₂, hmem⟩ := H₁.setWaiting (t := p) hlt none
        rw [hσ₂, Option.bind_some]
        have hout := hready ((contains_iff _ _).mp hb)
        refine ((enqueue_follows H₂ (H₂.ready hcur) hout hlt new.node).mono ?_).imp ?_
        · intro h
          rw [hmem]
          exact hfree _ h.1 (by simp)
        · rintro _ s' ⟨mem', rfl, H₃, -⟩
          exact H₃
      · have hwake' : ¬ (isEmpty (s.queue (.children p)) || (s.threads p).waitingFor == some c) = true := hwake
        rw [if_neg hwake, if_neg hwake']
        exact .both H
    · have hb' : ¬ (Option.any (fun t => contains (s.queue .blocked) t) (some p)) = true := hb
      simp only [if_neg hb, if_neg hb']
      exact .both H

theorem wakeParent_made (s : State) (c : Tid) : (wakeParent s c).made = s.made := by
  unfold wakeParent
  cases (s.threads c).parent with
  | none => rfl
  | some p =>
    dsimp only
    split_ifs <;> rfl

theorem wakeParent_current (s : State) (c : Tid) : (wakeParent s c).currentThread = s.currentThread := by
  unfold wakeParent
  cases (s.threads c).parent with
  | none => rfl
  | some p =>
    dsimp only
    split_ifs <;> rfl

theorem exit_follows {new : Addresses} (H : InMemory σ s) (hI : Inv tr s) (hcur : s.currentThread = some c) :
    Follows (new.Fresh σ ∧ s.made < fuel) InMemory (σ.myThreadExit fuel c new) (some (myThreadExit s c)) := by
  have hc := (hI.running hcur).1
  obtain ⟨x, hx, -, hxp, -⟩ := H.thread hc
  have hpar : ∀ p, (s.threads c).parent = some p → p < s.made := by
    intro p hp
    exact lt_trans (hI.older p c (hI.parent c ▸ hp)) hc
  unfold Machine.myThreadExit myThreadExit
  rw [hx, Option.bind_eq_bind, Option.bind_some, hxp]
  refine Follows.bind_some ((leaveParent_follows H hpar).mono And.right) ?_
  rintro σ₁ ⟨H₁, hfree⟩
  have hcur₁ := (leaveParent_current s c).trans hcur
  obtain ⟨hmade, hready, hblocked⟩ := leaveParent_queues s c
  have hwake := wakeParent_follows fuel new H₁ hcur₁ (by
    rw [leaveParent_parent, hmade, hready, hblocked]
    intro p hp
    exact ⟨hpar p hp, fun hb hr => (hI.ready_alone hr).2.1 hb⟩)
  rw [leaveParent_parent, hmade] at hwake
  refine Follows.bind_some (hwake.mono fun h => ⟨hfree _ h.1.node, h.2⟩) ?_
  intro σ₂ H₂
  have hcur₂ := (wakeParent_current (leaveParent s c) c).trans hcur₁
  refine (getNextThread_follows H₂ (H₂.current.trans hcur₂)).mono ?_
  rw [wakeParent_made, hmade]
  exact And.right

theorem semInit_follows {new : Addresses} (H : InMemory σ s) (hI : Inv tr s) (v : ℤ) :
    Follows (new.Fresh σ ∧ s.made < fuel) (fun x y => ∃ σ', x = (y.1, σ') ∧ InMemory σ' y.2)
      (σ.mySemaphoreInit v new) (some (mySemaphoreInit s v)) := by
  unfold Machine.mySemaphoreInit mySemaphoreInit
  by_cases hv : v < 0
  · rw [if_pos hv, if_pos hv]
    exact .both ⟨σ, rfl, H⟩
  · rw [if_neg hv, if_neg hv]
    by_cases hq : σ.mem.queues new.queue = none
    · have hnone := hI.sems_made (le_refl s.semsMade)
      have hsem : σ.sems s.semsMade = none := by simpa [hnone] using H.sems s.semsMade
      simp only [Machine.makeQueue, execQueue, hq, guard, if_true, Option.pure_def, Option.bind_eq_bind,
        Option.bind_some, H.semsMade]
      obtain ⟨f, hO⟩ := H.owns
      have hpos : (σ.setSem s.semsMade (some ⟨v, new.queue⟩)).queue =
          Function.update σ.queue (.waiters s.semsMade) (some new.queue) := by
        funext o
        cases o with
        | waiters m =>
          by_cases hm : m = s.semsMade
          · subst hm
            simp [Machine.queue, Machine.setSem]
          · simp [Machine.queue, Machine.setSem, hm]
        | _ => simp [Machine.queue, Machine.setSem]
      have hlists : (s.setSem s.semsMade (some ⟨v, makeQueue⟩)).queue =
          Function.update s.queue (.waiters s.semsMade) [] := by
        funext o
        cases o with
        | waiters m =>
          by_cases hm : m = s.semsMade
          · subst hm
            simp [State.queue, State.setSem, State.waitQueue, makeQueue]
          · simp [State.queue, State.setSem, State.waitQueue, hm]
        | _ => simp [State.queue, State.setSem]
      have hadd := hO.add (o := .waiters s.semsMade) (by simp [Machine.queue, hsem]) hq
      rw [← hpos, ← hlists] at hadd
      refine .both ⟨_, rfl, ⟨_, hadd⟩, ?_, H.threads, H.cell, ?_, H.made, rfl, H.current⟩
      · intro o t ht
        have ht : t ∈ (s.setSem s.semsMade (some ⟨v, makeQueue⟩)).queue o := ht
        rw [hlists] at ht
        by_cases hne : o = .waiters s.semsMade
        · simp [hne] at ht
        · rw [Function.update_of_ne hne] at ht
          exact H.below o t ht
      · intro m
        by_cases hm : m = s.semsMade
        · subst hm
          simp [Machine.setSem, State.setSem]
        · simpa [Machine.setSem, State.setSem, hm] using H.sems m
    · simp only [Machine.makeQueue, hq, guard, if_false, Option.bind_eq_bind]
      exact .gaveUp fun h => hq h.1.queue

theorem setSem_setQueue (s : State) (m : Sid) (y : Semaphore) (l : Queue) :
    (s.setSem m (some y)).setQueue l (.waiters m) = s.setSem m (some { y with waitQueue := l }) := by
  simp [State.setQueue, State.setSem]

theorem signal_follows (fuel : ℕ) (new : Addresses) (H : InMemory σ s) (hI : Inv tr s) (hcur : s.currentThread = some c)
    (m : Sid) : Follows (new.Fresh σ ∧ s.made < fuel) InMemory (σ.mySemaphoreSignal m new) (mySemaphoreSignal s m) := by
  unfold Machine.mySemaphoreSignal mySemaphoreSignal
  rcases H.semaphore m with ⟨hx, hy⟩ | ⟨x, y, hx, hy, hcount, hq, hl⟩
  · rw [hx, hy]
    exact .neither
  · have H₁ := H.setCount hx hy (y.count + 1)
    simp only [hx, hy, Option.bind_eq_bind, Option.bind_some, hcount]
    by_cases hle : y.count + 1 ≤ 0
    · rw [if_pos hle, if_pos hle]
      have hq₁ : (σ.setSem m (some { x with count := y.count + 1 })).queue (.waiters m) = some x.waitQueue := by
        simp [Machine.queue, Machine.setSem]
      have hl₁ : (s.setSem m (some { y with count := y.count + 1 })).queue (.waiters m) = y.waitQueue := by
        simp [State.queue, State.waitQueue, State.setSem]
      obtain ⟨σ₂, hde, mem, rfl, H₂, hfree⟩ := dequeue_becomes H₁ hq₁
      rw [hl₁] at hde H₂
      rw [hde, Option.bind_some]
      cases hw : y.waitQueue with
      | nil =>
        -- `NULL` would be put on the ready queue
        exact .neither
      | cons t l =>
        rw [hw] at H₂
        have hmem : t ∈ s.waitQueue m := by simp [waitQueue_of_some hy, hw]
        have hout : t ∉ s.readyQueue := fun hr => (hI.ready_alone hr).2.2 m hmem
        have hlt : t < s.made := H.below (.waiters m) t hmem
        simp only [dequeue, Option.bind_some, setSem_setQueue] at H₂ ⊢
        refine ((enqueue_follows H₂ (H₂.ready hcur) hout hlt new.node).mono ?_).imp ?_
        · intro h
          exact hfree _ h.1.node (by simp)
        · rintro _ s' ⟨mem', rfl, H₃, -⟩
          exact H₃
    · rw [if_neg hle, if_neg hle]
      exact .both H₁

theorem wait_follows (fuel : ℕ) (new : Addresses) (H : InMemory σ s) (hI : Inv tr s) (hcur : s.currentThread = some c) (m : Sid) :
    Follows (new.Fresh σ ∧ s.made < fuel) InMemory (σ.mySemaphoreWait fuel c m new) (mySemaphoreWait s c m) := by
  unfold Machine.mySemaphoreWait mySemaphoreWait
  rcases H.semaphore m with ⟨hx, hy⟩ | ⟨x, y, hx, hy, hcount, hq, hl⟩
  · rw [hx, hy]
    exact .neither
  · have H₁ := H.setCount hx hy (y.count - 1)
    simp only [hx, hy, Option.bind_eq_bind, Option.bind_some, hcount]
    by_cases hlt : y.count - 1 < 0
    · rw [if_pos hlt, if_pos hlt]
      have hq₁ : (σ.setSem m (some { x with count := y.count - 1 })).queue (.waiters m) = some x.waitQueue := by
        simp [Machine.queue, Machine.setSem]
      have hl₁ : (s.setSem m (some { y with count := y.count - 1 })).queue (.waiters m) = y.waitQueue := by
        simp [State.queue, State.waitQueue, State.setSem]
      have hout : c ∉ (s.setSem m (some { y with count := y.count - 1 })).queue (.waiters m) := by
        rw [hl₁, ← waitQueue_of_some hy]
        exact hI.running_not_waiting hcur m
      have hpark := park_follows fuel new.node H₁ hq₁ hout (hI.running hcur).1 hcur
      rw [hl₁, setSem_setQueue] at hpark
      exact hpark.mono fun h => ⟨h.1.node, h.2⟩
    · rw [if_neg hlt, if_neg hlt]
      exact .both H₁

theorem destroy_follows (H : InMemory σ s) (m : Sid) :
    Follows (s.made < fuel) (fun x y => ∃ σ', x = (y.1, σ') ∧ InMemory σ' y.2) (σ.mySemaphoreDestroy fuel m)
      (mySemaphoreDestroy s m) := by
  unfold Machine.mySemaphoreDestroy mySemaphoreDestroy
  rcases H.semaphore m with ⟨hx, hy⟩ | ⟨x, y, hx, hy, hcount, hq, hl⟩
  · rw [hx, hy]
    exact .neither
  · simp only [hx, hy, isEmpty_eq H hq, hl, Option.bind_eq_bind, Option.bind_some]
    by_cases hempty : isEmpty y.waitQueue = true
    · rw [if_pos hempty, if_pos hempty]
      obtain ⟨f, hO⟩ := H.owns
      have hnil : s.queue (.waiters m) = [] := hl.trans ((isEmpty_iff _).mp hempty)
      have hshort : s.made < fuel → (s.queue (.waiters m)).length < fuel := by
        rw [hnil]
        exact Nat.zero_lt_of_lt
      refine Follows.bind_some ((freeQueue_follows σ hO hq).mono hshort) ?_
      rintro _ ⟨mem, rfl, f', hO'⟩
      have hpos : (σ.setSem m none).queue = Function.update σ.queue (.waiters m) none := by
        funext o
        cases o with
        | waiters n =>
          by_cases hn : n = m
          · subst hn
            simp [Machine.queue, Machine.setSem]
          · simp [Machine.queue, Machine.setSem, hn]
        | _ => simp [Machine.queue, Machine.setSem]
      have hlists : (s.setSem m none).queue = s.queue := by
        funext o
        cases o with
        | waiters n =>
          by_cases hn : n = m
          · subst hn
            rw [hnil]
            simp [State.queue, State.waitQueue, State.setSem]
          · simp [State.queue, State.waitQueue, State.setSem, hn]
        | _ => rfl
      rw [← hpos, ← hlists] at hO'
      refine .both ⟨_, rfl, ⟨f', hO'⟩, ?_, H.threads, H.cell, ?_, H.made, H.semsMade, H.current⟩
      · intro o t ht
        have ht : t ∈ (s.setSem m none).queue o := ht
        rw [hlists] at ht
        exact H.below o t ht
      · intro n
        by_cases hn : n = m
        · subst hn
          simp [Machine.setSem, State.setSem]
        · simpa [Machine.setSem, State.setSem, hn] using H.sems n
    · rw [if_neg hempty, if_neg hempty]
      exact .both ⟨σ, rfl, H⟩

end Calls

/-! ### Runs -/

/-- What a call of `c` returns, by `Threads.Sched`. -/
def reply (s : State) (c : Tid) : Call → Reply
  | .create => .thread (myThreadCreate s c).1
  | .join t => .code (myThreadJoin s c t).1
  | .semInit v => .semaphore (mySemaphoreInit s v).1
  | .semDestroy m => ((mySemaphoreDestroy s m).map fun x => Reply.code x.1).getD .void
  | _ => .void

section Runs

variable {σ σ' : Machine} {s : State} {fuel : ℕ} {c : Tid} {tr : Trace}

/-- The call returned what it should, and the machine is in the state it should be in. -/
def Answers (r : Reply) (x : Reply × Machine) (s' : State) : Prop := x.1 = r ∧ InMemory x.2 s'

/-- **Call by call the library in memory does what the library does.** -/
theorem exec_follows (fuel : ℕ) (new : Addresses) (H : InMemory σ s) (hI : Inv tr s) (hcur : s.currentThread = some c)
    (call : Call) : Follows (new.Fresh σ ∧ s.made < fuel) (Answers (reply s c call)) (σ.exec fuel c new call)
      (exec s c call) := by
  cases call with
  | create =>
    refine (create_follows H hI hcur).map (g := Prod.snd) ?_
    rintro _ b ⟨σ', rfl, H'⟩ hb
    obtain rfl := Option.some.inj hb
    exact ⟨rfl, H'⟩
  | yield => exact (yield_follows H hI hcur).map (g := id) fun _ _ H' _ => ⟨rfl, H'⟩
  | join t =>
    refine (join_follows H hI hcur t).map (g := Prod.snd) ?_
    rintro _ b ⟨σ', rfl, H'⟩ hb
    obtain rfl := Option.some.inj hb
    exact ⟨rfl, H'⟩
  | joinAll => exact (joinAll_follows H hI hcur).map (g := id) fun _ _ H' _ => ⟨rfl, H'⟩
  | exit => exact (exit_follows H hI hcur).map (g := id) fun _ _ H' _ => ⟨rfl, H'⟩
  | semInit v =>
    refine (semInit_follows H hI v).map (g := Prod.snd) ?_
    rintro _ b ⟨σ', rfl, H'⟩ hb
    obtain rfl := Option.some.inj hb
    exact ⟨rfl, H'⟩
  | semSignal m =>
    have h := (signal_follows fuel new H hI hcur m).map (f := Prod.mk Reply.void) (g := id)
      (Q := Answers .void) fun _ _ H' _ => ⟨rfl, H'⟩
    rwa [Option.map_id] at h
  | semWait m =>
    have h := (wait_follows fuel new H hI hcur m).map (f := Prod.mk Reply.void) (g := id)
      (Q := Answers .void) fun _ _ H' _ => ⟨rfl, H'⟩
    rwa [Option.map_id] at h
  | semDestroy m =>
    refine ((destroy_follows H m).mono And.right).map (g := Prod.snd) ?_
    rintro _ b ⟨σ', rfl, H'⟩ hb
    refine ⟨?_, H'⟩
    simp [reply, hb]

theorem makeQueue_some {q : ℕ} (h : σ.makeQueue q = some σ') : σ.mem.queues q = none ∧
    σ' = { σ with mem := ⟨σ.mem.nodes, Function.update σ.mem.queues q (some ⟨none, none⟩)⟩ } := by
  by_cases hq : σ.mem.queues q = none
  · simp only [Machine.makeQueue, execQueue, hq, guard, if_true, Option.pure_def, Option.bind_eq_bind, Option.bind_some,
      Option.some.injEq] at h
    exact ⟨hq, h.symm⟩
  · simp [Machine.makeQueue, hq] at h

/-- `MyThreadInit` makes the queues of the scheduler and the main thread with its own. -/
theorem init_inMemory {ready blocked children : ℕ} (h : Machine.myThreadInit ready blocked children = some σ) :
    InMemory σ myThreadInit := by
  simp only [Machine.myThreadInit, Machine.makeThread, Option.bind_eq_bind, Option.bind_eq_some_iff,
    Option.some.injEq] at h
  obtain ⟨σ₁, h₁, σ₂, h₂, ⟨thread, σ₃⟩, ⟨σ₄, h₄, heq⟩, hσ⟩ := h
  obtain ⟨hr, rfl⟩ := makeQueue_some h₁
  obtain ⟨hb, rfl⟩ := makeQueue_some h₂
  obtain ⟨hc, rfl⟩ := makeQueue_some h₄
  obtain ⟨rfl, rfl⟩ := Prod.mk.inj heq
  have hO := (((owns_empty fun _ => []).add (o := .ready) rfl hr).add (o := .blocked) rfl hb).add
    (o := .children 0) rfl hc
  have hlists : myThreadInit.queue = Function.update (Function.update (Function.update (fun _ => []) .ready [])
      .blocked []) (.children 0) [] := by
    funext o
    cases o <;> simp [State.queue, myThreadInit, makeQueue, State.waitQueue, Function.update_apply]
  have hthreads : σ.threads = Function.update (fun _ => none) 0 (some ⟨none, children, none⟩) := by rw [← hσ]; rfl
  have hsems : σ.sems = fun _ => none := by rw [← hσ]; rfl
  have hqueues : σ.readyQueue = ready ∧ σ.blockedQueue = blocked ∧ σ.currentThread = some 0 := by
    rw [← hσ]
    exact ⟨rfl, rfl, rfl⟩
  have hpos : σ.queue = Function.update (Function.update (Function.update (fun _ => none) .ready (some ready))
      .blocked (some blocked)) (.children 0) (some children) := by
    funext o
    cases o with
    | children t =>
      by_cases ht : t = 0
      · simp [Machine.queue, hthreads, ht]
      · simp [Machine.queue, hthreads, ht]
    | _ => simp [Machine.queue, hsems, hqueues]
  rw [← hlists, ← hpos] at hO
  constructor
  · rw [← hσ] at hO ⊢
    exact ⟨_, hO⟩
  · intro o t ht
    cases o <;> simp [State.queue, myThreadInit, makeQueue, State.waitQueue] at ht
  · intro t
    by_cases ht : t = 0
    · simp [hthreads, myThreadInit, ht]
    · simp [hthreads, myThreadInit, ht]
  · intro t x hx
    by_cases ht : t = 0
    · subst ht
      obtain rfl : ThreadCell.mk none children none = x := by simpa [hthreads] using hx
      exact ⟨rfl, rfl⟩
    · simp [hthreads, ht] at hx
  · rw [hsems]
    exact fun _ => rfl
  · rw [← hσ]
    rfl
  · rw [← hσ]
    rfl
  · exact hqueues.2.2

/-- **The library in memory has no run the library does not have.** -/
theorem machine_simulates : machine.Simulates programs fun σ s => InMemory σ s ∧ ∃ tr, Inv tr s := by
  rintro σ s e σ' ⟨H, tr, hI⟩ ⟨hcur, new, fuel, r, hex⟩
  have hcur' : s.currentThread = some e.caller := H.current ▸ hcur
  have hfollow := exec_follows fuel new H hI hcur' e.call
  rw [hex] at hfollow
  obtain ⟨s', hs', -, H'⟩ := hfollow.returned
  have hst : programs.step s e s' := ⟨hcur', hs'⟩
  exact ⟨s', hst, H', _, inv_programs_step hI hst⟩

/-- **The library works on its linked queues as on lists.** Whatever addresses `malloc`
returns, every run of the library in memory is a run of `Threads.Sched` under the same
calls. Each queue of the one, of the scheduler, of a thread or of a semaphore, is at an
address of its own and is linked there as the list of the other; no further queue is
allocated. And the next call returns, with the same reply: as long as it is not one on a
semaphore that is freed, no assertion of `queue.h` fails, no pointer is followed that is
`NULL` or freed, and no loop runs longer than there are threads. -/
theorem library_in_memory {σ₀ : Machine} (h0 : machine.init σ₀) {run : List (Trans Machine Event)}
    (hr : machine.Run σ₀ run σ) :
    ∃ tr s, programs.Run myThreadInit tr s ∧ labels tr = labels run ∧ InMemory σ s ∧
      (∀ o q, σ.queue o = some q → (∀ o', σ.queue o' = some q → o' = o) ∧
        ∃ x l, σ.mem.queues q = some x ∧ Linked σ.mem.nodes x l ∧ values l = s.queue o ∧ (s.queue o).Nodup) ∧
      (∀ q, σ.mem.queues q ≠ none → ∃ o, σ.queue o = some q) ∧
      ∀ c new fuel call, σ.currentThread = some c → new.Fresh σ → s.made < fuel →
        Option.Rel (Answers (reply s c call)) (σ.exec fuel c new call) (exec s c call) ∧
          (Allowed s call → (exec s c call).isSome) := by
  obtain ⟨ready, blocked, children, hinit⟩ := h0
  obtain ⟨tr, s, hrun, hlab, H, -⟩ := machine_simulates.run ⟨init_inMemory hinit, [], inv_init⟩ hr
  obtain ⟨f, hO⟩ := id H.owns
  refine ⟨tr, s, hrun, hlab, H, ?_, ?_, ?_⟩
  · intro o q ho
    exact ⟨fun o' ho' => hO.apart o' o q ho' ho, hO.linked ho⟩
  · intro q hq
    apply hO.owned
    obtain ⟨x, hx⟩ := Option.ne_none_iff_exists'.mp hq
    obtain ⟨L, hL⟩ := hO.represents
    rw [(hL.linked q x hx).2.1]
    simp
  · intro c new fuel call hcur hnew hfuel
    have hI := inv_programs hrun
    exact ⟨(exec_follows fuel new H hI (H.current ▸ hcur) call).rel ⟨hnew, hfuel⟩, fun ha => programs_total hrun c ha⟩

/-- Main creates a thread and yields to it: the ready queue is a linked list still. -/
theorem library_in_memory_yield : ∃ σ₀ run σ x l, machine.init σ₀ ∧ machine.Run σ₀ run σ ∧
    labels run = [⟨0, .create⟩, ⟨0, .yield⟩] ∧ σ.queue .ready = some 0 ∧ σ.mem.queues 0 = some x ∧
    Linked σ.mem.nodes x l ∧ (values l).Nodup := by
  have h0 : machine.init ((Machine.myThreadInit 0 1 2).get rfl) := ⟨0, 1, 2, rfl⟩
  have h1 := (Lts.Run.nil (M := machine) ((Machine.myThreadInit 0 1 2).get rfl)).snoc
    (a := ⟨0, .create⟩) ⟨rfl, ⟨3, 0, 1⟩, 0, _, rfl⟩
  have h2 := h1.snoc (a := ⟨0, .yield⟩) ⟨rfl, ⟨3, 2, 3⟩, 0, _, rfl⟩
  obtain ⟨tr, s, -, -, -, hq, -⟩ := library_in_memory h0 h2
  obtain ⟨-, x, l, hx, hl, hv, hnd⟩ := hq .ready 0 rfl
  exact ⟨_, _, _, x, l, h0, h2, rfl, rfl, hx, hl, hv ▸ hnd⟩

end Runs

end Threads
end Csc501

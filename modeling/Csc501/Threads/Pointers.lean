/-
# The library on the queues in memory

`mythread.c` again, now with the queues as `queue.h` makes them: a thread points to its
`children`, a semaphore to its `wait_queue`, and each call of the library allocates,
links, unlinks and frees their nodes. Which addresses `malloc` returns in a call is an
argument (`Addresses`); each of them is one that is not allocated at that moment. A result
`none` is an assertion that fails, a pointer followed that is `NULL` or freed, `NULL` put
on the ready queue, a loop out of fuel, or an address that is in use.

Threads and semaphores have the numbers they have in `Threads.Sched`. `current_thread` is
`none` once `get_next_thread` has found the ready queue empty and has freed both queues.

Key definitions: `Machine`, `Machine.getNextThread`, `Machine.myThreadExit`, `Machine.exec`,
`Machine.myThreadInit`, `machine`.
-/
import Csc501.Threads.LinkedQueue
import Csc501.Threads.Sched

namespace Csc501
namespace Threads

open Lib

/-- `struct Thread` in memory, less its context. -/
structure ThreadCell where
  parent : Option Tid
  children : ℕ
  waitingFor : Option Tid
  deriving DecidableEq

/-- `struct Semaphore` in memory. -/
structure SemaphoreCell where
  count : ℤ
  waitQueue : ℕ
  deriving DecidableEq

/-- The globals of `mythread.c` and all that is allocated. -/
structure Machine where
  mem : Memory
  threads : Tid → Option ThreadCell
  made : ℕ
  sems : Sid → Option SemaphoreCell
  semsMade : ℕ
  readyQueue : ℕ
  blockedQueue : ℕ
  currentThread : Option Tid

/-- What `malloc` returns in a call: for a queue, and for up to two nodes. -/
structure Addresses where
  queue : ℕ
  node : ℕ
  node' : ℕ

/-- What a call returns. -/
inductive Reply
  | void
  | thread (t : Tid)
  | semaphore (m : Option Sid)
  | code (r : ℤ)
  deriving DecidableEq

namespace Machine

/-! ### `queue.h` -/

/-- `make_queue`. -/
def makeQueue (σ : Machine) (q : ℕ) : Option Machine := do
  guard (σ.mem.queues q = none)
  let (mem, _) ← execQueue 0 σ.mem (.makeQueue q)
  some { σ with mem := mem }

/-- `enqueue`. -/
def enqueue (σ : Machine) (q : ℕ) (thread : Tid) (node : ℕ) : Option Machine := do
  guard (σ.mem.nodes node = none)
  let (mem, _) ← execQueue 0 σ.mem (.enqueue q thread node)
  some { σ with mem := mem }

/-- `dequeue`. -/
def dequeue (σ : Machine) (q : ℕ) : Option (Option Tid × Machine) := do
  let (mem, thread) ← execQueue 0 σ.mem (.dequeue q)
  some (thread, { σ with mem := mem })

/-- `remove_node`. -/
def removeNode (σ : Machine) (fuel q : ℕ) (thread : Tid) : Option Machine := do
  let (mem, _) ← execQueue fuel σ.mem (.removeNode q thread)
  some { σ with mem := mem }

/-- `is_empty`. -/
def isEmpty (σ : Machine) (q : ℕ) : Option Bool := do
  let x ← σ.mem.queues q
  some x.isEmpty

/-- `contains`. No node holds `NULL`: the loop that looks for it goes to the end. -/
def contains (σ : Machine) (fuel q : ℕ) (thread : Option Tid) : Option Bool := do
  let x ← σ.mem.queues q
  match thread with
  | some t => x.contains σ.mem.nodes fuel t
  | none => do
    let _ ← x.size σ.mem.nodes fuel
    some false

/-- The loop of `free_queue`. -/
def freeLoop : ℕ → Memory → ℕ → Option Memory
  | 0, _, _ => none
  | fuel + 1, mem, q => do
    let x ← mem.queues q
    if x.head = none then some mem
    else do
      let (mem, _) ← execQueue 0 mem (.dequeue q)
      freeLoop fuel mem q

/-- `free_queue`. -/
def freeQueue (σ : Machine) (fuel q : ℕ) : Option Machine := do
  let mem ← freeLoop fuel σ.mem q
  some { σ with mem := ⟨mem.nodes, Function.update mem.queues q none⟩ }

/-! ### `mythread.c` -/

/-- A store through a `Thread *`. -/
def modify (σ : Machine) (t : Tid) (f : ThreadCell → ThreadCell) : Option Machine := do
  let x ← σ.threads t
  some { σ with threads := Function.update σ.threads t (some (f x)) }

/-- A store through a `Semaphore *`. -/
def setSem (σ : Machine) (m : Sid) (x : Option SemaphoreCell) : Machine :=
  { σ with sems := Function.update σ.sems m x }

/-- `make_thread`. -/
def makeThread (σ : Machine) (q : ℕ) : Option (Tid × Machine) := do
  let σ ← σ.makeQueue q
  some (σ.made, { σ with
    threads := Function.update σ.threads σ.made (some ⟨none, q, none⟩)
    made := σ.made + 1 })

/-- `current_thread = get_next_thread()`. -/
def getNextThread (σ : Machine) (fuel : ℕ) : Option Machine := do
  let (next, σ) ← σ.dequeue σ.readyQueue
  match next with
  | some t => some { σ with currentThread := some t }
  | none => do
    let σ ← σ.freeQueue fuel σ.readyQueue
    let σ ← σ.freeQueue fuel σ.blockedQueue
    some { σ with currentThread := none }

/-- `MyThreadCreate` by the thread `c`. -/
def myThreadCreate (σ : Machine) (c : Tid) (new : Addresses) : Option (Tid × Machine) := do
  let (thread, σ) ← σ.makeThread new.queue
  let σ ← σ.modify thread fun x => { x with parent := some c }
  let x ← σ.threads c
  let σ ← σ.enqueue x.children thread new.node
  let σ ← σ.enqueue σ.readyQueue thread new.node'
  some (thread, σ)

/-- `MyThreadYield`. -/
def myThreadYield (σ : Machine) (fuel : ℕ) (c : Tid) (new : Addresses) : Option Machine := do
  let σ ← σ.enqueue σ.readyQueue c new.node
  σ.getNextThread fuel

/-- `MyThreadJoin`. -/
def myThreadJoin (σ : Machine) (fuel : ℕ) (c t : Tid) (new : Addresses) : Option (ℤ × Machine) := do
  let x ← σ.threads c
  let isChild ← σ.contains fuel x.children (some t)
  if ¬ isChild then some (-1, σ)
  else do
    let σ ← σ.modify t fun x => { x with parent := some c }
    let σ ← σ.modify c fun x => { x with waitingFor := some t }
    let σ ← σ.enqueue σ.blockedQueue c new.node
    let σ ← σ.getNextThread fuel
    some (0, σ)

/-- `MyThreadJoinAll`. -/
def myThreadJoinAll (σ : Machine) (fuel : ℕ) (c : Tid) (new : Addresses) : Option Machine := do
  let x ← σ.threads c
  let noChild ← σ.isEmpty x.children
  if ¬ noChild then do
    let σ ← σ.enqueue σ.blockedQueue c new.node
    σ.getNextThread fuel
  else some σ

/-- In `MyThreadExit`: the exiting thread leaves its parent's children. -/
def leaveParent (σ : Machine) (fuel : ℕ) (c : Tid) (parent : Option Tid) : Option Machine :=
  match parent with
  | none => some σ
  | some p => do
    let x ← σ.threads p
    σ.removeNode fuel x.children c

/-- In `MyThreadExit`: a blocked parent is woken when it has no child left or waits for
this one. -/
def wakeParent (σ : Machine) (fuel : ℕ) (c : Tid) (parent : Option Tid) (new : Addresses) : Option Machine := do
  let blocked ← σ.contains fuel σ.blockedQueue parent
  if blocked then do
    let p ← parent
    let x ← σ.threads p
    let noChild ← σ.isEmpty x.children
    if noChild || x.waitingFor == some c then do
      let σ ← σ.removeNode fuel σ.blockedQueue p
      let σ ← σ.modify p fun x => { x with waitingFor := none }
      σ.enqueue σ.readyQueue p new.node
    else some σ
  else some σ

/-- `MyThreadExit`. -/
def myThreadExit (σ : Machine) (fuel : ℕ) (c : Tid) (new : Addresses) : Option Machine := do
  let x ← σ.threads c
  let σ ← σ.leaveParent fuel c x.parent
  let σ ← σ.wakeParent fuel c x.parent new
  σ.getNextThread fuel

/-- `MySemaphoreInit`. -/
def mySemaphoreInit (σ : Machine) (initialValue : ℤ) (new : Addresses) : Option (Option Sid × Machine) :=
  if initialValue < 0 then some (none, σ)
  else do
    let σ ← σ.makeQueue new.queue
    some (some σ.semsMade, { σ.setSem σ.semsMade (some ⟨initialValue, new.queue⟩) with semsMade := σ.semsMade + 1 })

/-- `MySemaphoreSignal`. -/
def mySemaphoreSignal (σ : Machine) (m : Sid) (new : Addresses) : Option Machine := do
  let x ← σ.sems m
  let σ := σ.setSem m (some { x with count := x.count + 1 })
  if x.count + 1 ≤ 0 then do
    let (thread, σ) ← σ.dequeue x.waitQueue
    let t ← thread
    σ.enqueue σ.readyQueue t new.node
  else some σ

/-- `MySemaphoreWait` by the thread `c`. -/
def mySemaphoreWait (σ : Machine) (fuel : ℕ) (c : Tid) (m : Sid) (new : Addresses) : Option Machine := do
  let x ← σ.sems m
  let σ := σ.setSem m (some { x with count := x.count - 1 })
  if x.count - 1 < 0 then do
    let σ ← σ.enqueue x.waitQueue c new.node
    σ.getNextThread fuel
  else some σ

/-- `MySemaphoreDestroy`. -/
def mySemaphoreDestroy (σ : Machine) (fuel : ℕ) (m : Sid) : Option (ℤ × Machine) := do
  let x ← σ.sems m
  let noThread ← σ.isEmpty x.waitQueue
  if noThread then do
    let σ ← σ.freeQueue fuel x.waitQueue
    some (0, σ.setSem m none)
  else some (-1, σ)

/-- A call of the running thread `c`. -/
def exec (σ : Machine) (fuel : ℕ) (c : Tid) (new : Addresses) : Call → Option (Reply × Machine)
  | .create => (σ.myThreadCreate c new).map (Prod.map .thread id)
  | .yield => (σ.myThreadYield fuel c new).map (Prod.mk .void)
  | .join t => (σ.myThreadJoin fuel c t new).map (Prod.map .code id)
  | .joinAll => (σ.myThreadJoinAll fuel c new).map (Prod.mk .void)
  | .exit => (σ.myThreadExit fuel c new).map (Prod.mk .void)
  | .semInit v => (σ.mySemaphoreInit v new).map (Prod.map .semaphore id)
  | .semSignal m => (σ.mySemaphoreSignal m new).map (Prod.mk .void)
  | .semWait m => (σ.mySemaphoreWait fuel c m new).map (Prod.mk .void)
  | .semDestroy m => (σ.mySemaphoreDestroy fuel m).map (Prod.map .code id)

/-- Before `MyThreadInit`: nothing is allocated. -/
def blank : Machine := ⟨.empty, fun _ => none, 0, fun _ => none, 0, 0, 0, none⟩

/-- `MyThreadInit`, with the addresses of its queues. -/
def myThreadInit (ready blocked children : ℕ) : Option Machine := do
  let σ ← blank.makeQueue ready
  let σ := { σ with readyQueue := ready }
  let σ ← σ.makeQueue blocked
  let σ := { σ with blockedQueue := blocked }
  let (thread, σ) ← σ.makeThread children
  some { σ with currentThread := some thread }

end Machine

/-- The library in memory, under any program. -/
def machine : Lts Machine Event where
  init σ := ∃ ready blocked children, Machine.myThreadInit ready blocked children = some σ
  step σ e σ' := σ.currentThread = some e.caller ∧
    ∃ new fuel reply, σ.exec fuel e.caller new e.call = some (reply, σ')

end Threads
end Csc501

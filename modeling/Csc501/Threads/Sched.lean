/-
# The scheduler of the thread library

`mythread.c`: one thread runs, the others sit in the ready queue, in the
blocked queue (joins) or in the wait queue of a semaphore. The library is not
pre-emptive, so between two calls nothing moves, and a program is the choice,
again and again, of the next call by the running thread: `lib` lets it choose
any call, and so has the runs of every program.

`current_thread` is `none` once `get_next_thread` has found the ready queue
empty, which is when `MyThreadInit` returns; the queues are then as
`get_next_thread` saw them, before it frees them. The memory of a thread that
has exited is never freed, and neither is its `children` queue.

Key definitions: `State`, `exec`, `lib`, `Effect`.
Key theorems: `exec_effect`.
-/
import Csc501.Lib.Run
import Csc501.Threads.Queue
import Mathlib.Algebra.Order.Group.Int
import Mathlib.Logic.Function.Basic

namespace Csc501
namespace Threads

open Lib

/-- A `Semaphore *`. -/
abbrev Sid := ℕ

/-- `struct Thread`, less its context. -/
structure Thread where
  parent : Option Tid
  children : Queue
  waitingFor : Option Tid
  deriving DecidableEq, Repr

/-- `struct Semaphore`; the count is unbounded. -/
structure Semaphore where
  count : ℤ
  waitQueue : Queue
  deriving DecidableEq, Repr

/-- The globals of `mythread.c` and what they point to. `made` and `semsMade`
count the allocations; `sems` is `none` at a semaphore that is not allocated. -/
structure State where
  threads : Tid → Thread
  made : ℕ
  sems : Sid → Option Semaphore
  semsMade : ℕ
  readyQueue : Queue
  blockedQueue : Queue
  currentThread : Option Tid

namespace State

/-- A store through a `Thread *`. -/
def modify (s : State) (t : Tid) (f : Thread → Thread) : State :=
  { s with threads := Function.update s.threads t (f (s.threads t)) }

/-- A store through a `Semaphore *`. -/
def setSem (s : State) (m : Sid) (x : Option Semaphore) : State :=
  { s with sems := Function.update s.sems m x }

/-- The wait queue of a semaphore; a freed one has none. -/
def waitQueue (s : State) (m : Sid) : Queue := ((s.sems m).map Semaphore.waitQueue).getD []

end State

/-! ### The calls -/

/-- `make_thread`. -/
def makeThread (s : State) : Tid × State :=
  (s.made, { s with
    threads := Function.update s.threads s.made ⟨none, makeQueue, none⟩
    made := s.made + 1 })

/-- `current_thread = get_next_thread()`. -/
def getNextThread (s : State) : State :=
  let next := dequeue s.readyQueue
  { s with readyQueue := next.2, currentThread := next.1 }

/-- `MyThreadCreate` by the thread `c`: the handle it returns and the state. -/
def myThreadCreate (s : State) (c : Tid) : Tid × State :=
  let thread := (makeThread s).1
  let s := (makeThread s).2
  let s := s.modify thread fun x => { x with parent := some c }
  let s := s.modify c fun x => { x with children := enqueue x.children thread }
  (thread, { s with readyQueue := enqueue s.readyQueue thread })

/-- `MyThreadYield`. -/
def myThreadYield (s : State) (c : Tid) : State :=
  getNextThread { s with readyQueue := enqueue s.readyQueue c }

/-- `MyThreadJoin`: the result the call returns in the end, and the state in
which it hands over. The `assert` in it is an assignment. -/
def myThreadJoin (s : State) (c t : Tid) : ℤ × State :=
  if ¬ contains (s.threads c).children t then (-1, s)
  else
    let s := s.modify t fun x => { x with parent := some c }
    let s := s.modify c fun x => { x with waitingFor := some t }
    (0, getNextThread { s with blockedQueue := enqueue s.blockedQueue c })

/-- `MyThreadJoinAll`. -/
def myThreadJoinAll (s : State) (c : Tid) : State :=
  if ¬ isEmpty (s.threads c).children then
    getNextThread { s with blockedQueue := enqueue s.blockedQueue c }
  else s

/-- In `MyThreadExit`: the exiting thread leaves its parent's children. -/
def leaveParent (s : State) (c : Tid) : State :=
  match (s.threads c).parent with
  | none => s
  | some p => s.modify p fun x => { x with children := removeNode x.children c }

/-- In `MyThreadExit`: a blocked parent is woken when it has no child left or
waits for this one. No queue holds `NULL`. -/
def wakeParent (s : State) (c : Tid) : State :=
  match (s.threads c).parent with
  | none => s
  | some p =>
    if contains s.blockedQueue p then
      if isEmpty (s.threads p).children || (s.threads p).waitingFor == some c then
        let s := { s with blockedQueue := removeNode s.blockedQueue p }
        let s := s.modify p fun x => { x with waitingFor := none }
        { s with readyQueue := enqueue s.readyQueue p }
      else s
    else s

/-- `MyThreadExit`. -/
def myThreadExit (s : State) (c : Tid) : State := getNextThread (wakeParent (leaveParent s c) c)

/-- `MySemaphoreInit`: a negative value gives `NULL`. -/
def mySemaphoreInit (s : State) (initialValue : ℤ) : Option Sid × State :=
  if initialValue < 0 then (none, s)
  else (some s.semsMade, { s.setSem s.semsMade (some ⟨initialValue, makeQueue⟩) with
    semsMade := s.semsMade + 1 })

/-- `MySemaphoreSignal`. There is no state after a signal of a freed semaphore,
and none after one that dequeues from an empty wait queue: it would put `NULL`
on the ready queue. -/
def mySemaphoreSignal (s : State) (m : Sid) : Option State :=
  match s.sems m with
  | none => none
  | some x =>
    let x : Semaphore := { x with count := x.count + 1 }
    if x.count ≤ 0 then
      match dequeue x.waitQueue with
      | (none, _) => none
      | (some t, q) =>
        some { s.setSem m (some { x with waitQueue := q }) with readyQueue := enqueue s.readyQueue t }
    else some (s.setSem m (some x))

/-- `MySemaphoreWait` by the thread `c`. -/
def mySemaphoreWait (s : State) (c : Tid) (m : Sid) : Option State :=
  match s.sems m with
  | none => none
  | some x =>
    let x : Semaphore := { x with count := x.count - 1 }
    if x.count < 0 then
      some (getNextThread (s.setSem m (some { x with waitQueue := enqueue x.waitQueue c })))
    else some (s.setSem m (some x))

/-- `MySemaphoreDestroy`: the result and the state. -/
def mySemaphoreDestroy (s : State) (m : Sid) : Option (ℤ × State) :=
  match s.sems m with
  | none => none
  | some x => some (if isEmpty x.waitQueue then (0, s.setSem m none) else (-1, s))

/-- `MyThreadInit`: the main thread runs, every queue is empty. -/
def myThreadInit : State where
  threads _ := ⟨none, makeQueue, none⟩
  made := 1
  sems _ := none
  semsMade := 0
  readyQueue := makeQueue
  blockedQueue := makeQueue
  currentThread := some 0

/-- What the running thread may call. -/
inductive Call
  | create
  | yield
  | join (t : Tid)
  | joinAll
  | exit
  | semInit (initialValue : ℤ)
  | semSignal (m : Sid)
  | semWait (m : Sid)
  | semDestroy (m : Sid)
  deriving DecidableEq, Repr

/-- A call and who made it. -/
structure Event where
  caller : Tid
  call : Call
  deriving DecidableEq, Repr

/-- The state in which the library leaves a call of the running thread `c`. -/
def exec (s : State) (c : Tid) : Call → Option State
  | .create => some (myThreadCreate s c).2
  | .yield => some (myThreadYield s c)
  | .join t => some (myThreadJoin s c t).2
  | .joinAll => some (myThreadJoinAll s c)
  | .exit => some (myThreadExit s c)
  | .semInit v => some (mySemaphoreInit s v).2
  | .semSignal m => mySemaphoreSignal s m
  | .semWait m => mySemaphoreWait s c m
  | .semDestroy m => (mySemaphoreDestroy s m).map Prod.snd

/-- What a program may call: a semaphore that is allocated, started at a value
that is not negative. -/
def Allowed (s : State) : Call → Prop
  | .semInit v => 0 ≤ v
  | .semSignal m | .semWait m | .semDestroy m => (s.sems m).isSome
  | _ => True

/-- The library, driven by any program. -/
def lib : Lts State Event where
  init s := s = myThreadInit
  step s e s' := s.currentThread = some e.caller ∧ Allowed s e.call ∧ exec s e.caller e.call = some s'

/-! ### What a call can do -/

@[simp] theorem getNextThread_threads (s : State) : (getNextThread s).threads = s.threads := rfl
@[simp] theorem getNextThread_made (s : State) : (getNextThread s).made = s.made := rfl
@[simp] theorem getNextThread_blocked (s : State) : (getNextThread s).blockedQueue = s.blockedQueue := rfl

/-- The outcomes of a call of the running thread `c`, one constructor for each
path through the source. -/
inductive Effect (s : State) (c : Tid) : Call → State → Prop
  | create : Effect s c .create
      { s with
        threads := Function.update (Function.update s.threads s.made ⟨some c, [], none⟩) c
          { (Function.update s.threads s.made ⟨some c, [], none⟩ c) with
            children := enqueue (Function.update s.threads s.made ⟨some c, [], none⟩ c).children s.made }
        made := s.made + 1
        readyQueue := enqueue s.readyQueue s.made }
  | yield : Effect s c .yield (getNextThread { s with readyQueue := enqueue s.readyQueue c })
  | joinStranger {t : Tid} : t ∉ (s.threads c).children → Effect s c (.join t) s
  | joinBlock {t : Tid} : t ∈ (s.threads c).children → Effect s c (.join t)
      (getNextThread { (s.modify t fun x => { x with parent := some c }).modify c
        (fun x => { x with waitingFor := some t }) with blockedQueue := enqueue s.blockedQueue c })
  | joinAllPass : (s.threads c).children = [] → Effect s c .joinAll s
  | joinAllBlock : (s.threads c).children ≠ [] → Effect s c .joinAll
      (getNextThread { s with blockedQueue := enqueue s.blockedQueue c })
  | exitRoot : (s.threads c).parent = none → Effect s c .exit (getNextThread s)
  | exitQuiet {p : Tid} : (s.threads c).parent = some p →
      ¬ (p ∈ s.blockedQueue ∧
        (removeNode (s.threads p).children c = [] ∨ (s.threads p).waitingFor = some c)) →
      Effect s c .exit
        (getNextThread (s.modify p fun x => { x with children := removeNode x.children c }))
  | exitWake {p : Tid} : (s.threads c).parent = some p → p ∈ s.blockedQueue →
      (removeNode (s.threads p).children c = [] ∨ (s.threads p).waitingFor = some c) →
      Effect s c .exit
        (getNextThread { s.modify p (fun x =>
            { x with children := removeNode x.children c, waitingFor := none }) with
          blockedQueue := removeNode s.blockedQueue p
          readyQueue := enqueue s.readyQueue p })
  | semInit {v : ℤ} : 0 ≤ v → Effect s c (.semInit v)
      { s.setSem s.semsMade (some ⟨v, []⟩) with semsMade := s.semsMade + 1 }
  | signalPass {m : Sid} {x : Semaphore} : s.sems m = some x → 0 < x.count + 1 →
      Effect s c (.semSignal m) (s.setSem m (some { x with count := x.count + 1 }))
  | signalWake {m : Sid} {k : ℤ} {t : Tid} {q : Queue} : s.sems m = some ⟨k, t :: q⟩ → k + 1 ≤ 0 →
      Effect s c (.semSignal m)
        { s.setSem m (some ⟨k + 1, q⟩) with readyQueue := enqueue s.readyQueue t }
  | waitPass {m : Sid} {x : Semaphore} : s.sems m = some x → 0 ≤ x.count - 1 →
      Effect s c (.semWait m) (s.setSem m (some { x with count := x.count - 1 }))
  | waitBlock {m : Sid} {x : Semaphore} : s.sems m = some x → x.count - 1 < 0 →
      Effect s c (.semWait m)
        (getNextThread (s.setSem m (some ⟨x.count - 1, enqueue x.waitQueue c⟩)))
  | destroy {m : Sid} {x : Semaphore} : s.sems m = some x → x.waitQueue = [] →
      Effect s c (.semDestroy m) (s.setSem m none)
  | destroyRefused {m : Sid} {x : Semaphore} : s.sems m = some x → x.waitQueue ≠ [] →
      Effect s c (.semDestroy m) s

theorem exit_effect (s : State) (c : Tid) (hc : (s.threads c).parent ≠ some c) :
    Effect s c .exit (myThreadExit s c) := by
  unfold myThreadExit leaveParent
  cases hp : (s.threads c).parent with
  | none =>
    simp only [wakeParent, hp]
    exact .exitRoot hp
  | some p =>
    have hpc : c ≠ p := fun h => hc (h ▸ hp)
    have hp' : ((s.modify p fun x => { x with children := removeNode x.children c }).threads c).parent =
        some p := by
      simpa [State.modify, hpc] using hp
    simp only [wakeParent, hp']
    by_cases hw : p ∈ s.blockedQueue ∧
        (removeNode (s.threads p).children c = [] ∨ (s.threads p).waitingFor = some c)
    · have h1 : contains s.blockedQueue p = true := by simpa using hw.1
      have h2 : (isEmpty (removeNode (s.threads p).children c) ||
          (s.threads p).waitingFor == some c) = true := by simpa using hw.2
      have := Effect.exitWake hp hw.1 hw.2
      simpa [State.modify, h1, h2] using this
    · have : Effect s c .exit
          (getNextThread (s.modify p fun x => { x with children := removeNode x.children c })) :=
        .exitQuiet hp hw
      by_cases h1 : p ∈ s.blockedQueue
      · have h2 : (isEmpty (removeNode (s.threads p).children c) ||
            (s.threads p).waitingFor == some c) = false := by simpa [h1] using hw
        simpa [State.modify, h2] using this
      · have h1' : contains s.blockedQueue p = false := by simpa using h1
        simpa [State.modify, h1'] using this

/-- Every call of a thread that is not its own parent is one of the effects. -/
theorem exec_effect {s s' : State} {c : Tid} {call : Call} (hc : (s.threads c).parent ≠ some c)
    (ha : Allowed s call) (h : exec s c call = some s') : Effect s c call s' := by
  cases call with
  | create =>
    obtain rfl : _ = s' := Option.some.inj h
    have := Effect.create (s := s) (c := c)
    simpa [myThreadCreate, makeThread, State.modify, makeQueue] using this
  | yield =>
    obtain rfl : _ = s' := Option.some.inj h
    exact .yield
  | join t =>
    obtain rfl : _ = s' := Option.some.inj h
    by_cases ht : t ∈ (s.threads c).children
    · have h1 : contains (s.threads c).children t = true := by simpa using ht
      simpa [myThreadJoin, h1, State.modify] using Effect.joinBlock ht
    · have h1 : contains (s.threads c).children t = false := by simpa using ht
      simpa [myThreadJoin, h1] using Effect.joinStranger ht
  | joinAll =>
    obtain rfl : _ = s' := Option.some.inj h
    by_cases he : (s.threads c).children = []
    · simpa [myThreadJoinAll, he] using Effect.joinAllPass he
    · simpa [myThreadJoinAll, he] using Effect.joinAllBlock he
  | exit =>
    obtain rfl : _ = s' := Option.some.inj h
    exact exit_effect s c hc
  | semInit v =>
    obtain rfl : _ = s' := Option.some.inj h
    have hv : ¬ v < 0 := not_lt.mpr ha
    simpa [mySemaphoreInit, hv, makeQueue] using Effect.semInit (s := s) (c := c) ha
  | semSignal m =>
    simp only [exec, mySemaphoreSignal] at h
    cases hm : s.sems m with
    | none => simp [hm] at h
    | some x =>
      obtain ⟨k, q⟩ := x
      simp only [hm] at h
      split at h
      · rename_i hk
        cases q with
        | nil => simp [dequeue] at h
        | cons t q =>
          obtain rfl : _ = s' := Option.some.inj h
          exact .signalWake hm hk
      · rename_i hk
        obtain rfl : _ = s' := Option.some.inj h
        exact .signalPass hm (not_le.mp hk)
  | semWait m =>
    simp only [exec, mySemaphoreWait] at h
    cases hm : s.sems m with
    | none => simp [hm] at h
    | some x =>
      simp only [hm] at h
      split at h
      · rename_i hk
        obtain rfl : _ = s' := Option.some.inj h
        exact .waitBlock hm hk
      · rename_i hk
        obtain rfl : _ = s' := Option.some.inj h
        exact .waitPass hm (not_lt.mp hk)
  | semDestroy m =>
    simp only [exec, mySemaphoreDestroy] at h
    cases hm : s.sems m with
    | none => simp [hm] at h
    | some x =>
      simp only [hm, Option.map_some, Option.some.injEq] at h
      by_cases hq : x.waitQueue = []
      · obtain rfl : _ = s' := h
        simpa [hq] using Effect.destroy hm hq
      · obtain rfl : _ = s' := h
        simpa [hq] using Effect.destroyRefused hm hq

end Threads
end Csc501

/-
# The ready queue is served in order

The threads that were ever put on the ready queue, in the order in which they
were, are the threads `get_next_thread` has handed the processor to, in that
order, followed by those that are in the queue now (`fifo_dispatch`). So who
enters it behind `k` others runs after exactly `k` further hand-overs,
whatever the threads do in between.

Which thread a call puts on the ready queue (`readied`) and whether it ends in
`get_next_thread` (`handsOver`) are read off the source's conditions, before
the call; `exec_ready` says that the library does just that.

Key definitions: `programs`, `readied`, `handsOver`, `readyOrder`, `dispatchOrder`.
Key theorems: `exec_ready`, `step_ready`, `run_ready`, `fifo_dispatch`, `programs_step`.
-/
import Csc501.Threads.Semaphore

namespace Csc501
namespace Threads

open Lib

/-- The library under any program, also one that asks for a semaphore below
zero: `MySemaphoreInit` gives it `NULL`. -/
def programs : Lts State Event where
  init s := s = myThreadInit
  step s e s' := s.currentThread = some e.caller ∧ exec s e.caller e.call = some s'

/-! ### Who gets ready and who runs next -/

/-- The thread that an exit of `c` wakes: the parent, if it is blocked and has
no child left or waits for `c`. -/
def wokenByExit (s : State) (c : Tid) : Option Tid :=
  (s.threads c).parent.filter fun p =>
    contains s.blockedQueue p &&
      (isEmpty (removeNode (s.threads p).children c) || (s.threads p).waitingFor == some c)

/-- The thread that a signal wakes: the head of the wait queue, if the count
was below zero. -/
def wokenBySignal (s : State) (m : Sid) : Option Tid :=
  (s.sems m).bind fun x => if x.count + 1 ≤ 0 then (dequeue x.waitQueue).1 else none

/-- The thread that a call of `c` puts on the ready queue. -/
def readied (s : State) (c : Tid) : Call → Option Tid
  | .create => some s.made
  | .yield => some c
  | .exit => wokenByExit s c
  | .semSignal m => wokenBySignal s m
  | _ => none

/-- The call of `c` ends in `get_next_thread`. -/
def handsOver (s : State) (c : Tid) : Call → Bool
  | .yield | .exit => true
  | .join t => contains (s.threads c).children t
  | .joinAll => !isEmpty (s.threads c).children
  | .semWait m => (s.sems m).any fun x => x.count - 1 < 0
  | _ => false

/-- The threads put on the ready queue, in the order in which they were. -/
def readyOrder (tr : Trace) : List Tid :=
  tr.filterMap fun x => readied x.src x.label.caller x.label.call

/-- The thread that `get_next_thread` dispatches in a step, if it is called and
finds one. -/
def dispatched (x : Trans State Event) : Option Tid :=
  if handsOver x.src x.label.caller x.label.call then x.dst.currentThread else none

/-- The threads dispatched by `get_next_thread`, in the order in which they were. -/
def dispatchOrder (tr : Trace) : List Tid := tr.filterMap dispatched

@[simp] theorem modify_readyQueue (s : State) (t : Tid) (f : Thread → Thread) :
    (s.modify t f).readyQueue = s.readyQueue := rfl

@[simp] theorem setSem_readyQueue (s : State) (m : Sid) (x : Option Semaphore) :
    (s.setSem m x).readyQueue = s.readyQueue := rfl

/-- What `get_next_thread` takes off the queue is the thread that runs. -/
theorem getNextThread_ready (s : State) :
    (getNextThread s).currentThread.toList ++ (getNextThread s).readyQueue = s.readyQueue := by
  unfold getNextThread
  cases s.readyQueue <;> rfl

theorem leaveParent_parent (s : State) (c : Tid) :
    ((leaveParent s c).threads c).parent = (s.threads c).parent := by
  unfold leaveParent
  cases h : (s.threads c).parent with
  | none => exact h
  | some p =>
    by_cases hc : c = p
    · subst hc
      simpa [State.modify] using h
    · simpa [State.modify, Function.update, hc] using h

theorem leaveParent_ready (s : State) (c : Tid) :
    (wakeParent (leaveParent s c) c).readyQueue = s.readyQueue ++ (wokenByExit s c).toList := by
  unfold wakeParent
  rw [leaveParent_parent]
  cases h : (s.threads c).parent with
  | none => simp [leaveParent, wokenByExit, h]
  | some p =>
    simp only [leaveParent, h, wokenByExit, Option.filter_some, State.modify, Function.update_self]
    by_cases hb : contains s.blockedQueue p = true
    · rw [if_pos hb, hb, Bool.true_and]
      split_ifs <;> simp [enqueue]
    · rw [if_neg hb]
      simp [hb]

/-- **What a call does to the ready queue.** It puts `readied` at its end, and
then, if it hands over, calls `get_next_thread`. -/
theorem exec_ready {s s' : State} {c : Tid} {call : Call} (h : exec s c call = some s') :
    if handsOver s c call then
      ∃ s₁, s₁.readyQueue = s.readyQueue ++ (readied s c call).toList ∧ s' = getNextThread s₁
    else s'.readyQueue = s.readyQueue ++ (readied s c call).toList := by
  cases call with
  | create =>
    obtain rfl : _ = s' := Option.some.inj h
    rfl
  | yield =>
    obtain rfl : _ = s' := Option.some.inj h
    exact ⟨_, rfl, rfl⟩
  | join t =>
    obtain rfl : _ = s' := Option.some.inj h
    unfold handsOver myThreadJoin
    by_cases ht : contains (s.threads c).children t = true
    · rw [if_pos ht, if_neg (not_not.mpr ht)]
      exact ⟨_, by simp [readied], rfl⟩
    · rw [if_neg ht, if_pos ht]
      simp [readied]
  | joinAll =>
    obtain rfl : _ = s' := Option.some.inj h
    unfold handsOver myThreadJoinAll
    by_cases ht : isEmpty (s.threads c).children = true
    · rw [if_neg (by simp [ht]), if_neg (not_not.mpr ht)]
      simp [readied]
    · rw [if_pos (by simpa using ht), if_pos ht]
      exact ⟨_, by simp [readied], rfl⟩
  | exit =>
    obtain rfl : _ = s' := Option.some.inj h
    exact ⟨_, leaveParent_ready s c, rfl⟩
  | semInit v =>
    obtain rfl : _ = s' := Option.some.inj h
    unfold mySemaphoreInit
    split_ifs <;> simp_all [readied, handsOver]
  | semSignal m =>
    unfold exec mySemaphoreSignal at h
    cases hm : s.sems m with
    | none => simp [hm] at h
    | some x =>
      simp only [hm] at h
      simp only [handsOver, readied, wokenBySignal, hm, Option.bind_some, Bool.false_eq_true, if_false]
      by_cases hk : x.count + 1 ≤ 0
      · rw [if_pos hk] at h ⊢
        cases hq : x.waitQueue with
        | nil => simp [hq, dequeue] at h
        | cons t q =>
          simp only [hq, dequeue, Option.some.injEq] at h
          subst h
          rfl
      · rw [if_neg hk] at h ⊢
        obtain rfl : _ = s' := Option.some.inj h
        simp
  | semWait m =>
    unfold exec mySemaphoreWait at h
    cases hm : s.sems m with
    | none => simp [hm] at h
    | some x =>
      simp only [hm] at h
      simp only [handsOver, readied, hm, Option.any_some, decide_eq_true_eq, Option.toList_none, List.append_nil]
      by_cases hk : x.count - 1 < 0
      · rw [if_pos hk] at h ⊢
        refine ⟨s.setSem m (some ⟨x.count - 1, enqueue x.waitQueue c⟩), rfl, (Option.some.inj h).symm⟩
      · rw [if_neg hk] at h ⊢
        obtain rfl : _ = s' := Option.some.inj h
        rfl
  | semDestroy m =>
    unfold exec mySemaphoreDestroy at h
    cases hm : s.sems m with
    | none => simp [hm] at h
    | some x =>
      simp only [hm, Option.map_some, Option.some.injEq] at h
      subst h
      simp only [handsOver, readied, Bool.false_eq_true, if_false, Option.toList_none, List.append_nil]
      split_ifs <;> rfl

/-! ### Runs -/

theorem readyOrder_snoc (tr : Trace) (x : Trans State Event) :
    readyOrder (tr ++ [x]) = readyOrder tr ++ (readied x.src x.label.caller x.label.call).toList := by
  unfold readyOrder
  rw [List.filterMap_append]
  cases h : readied x.src x.label.caller x.label.call <;> simp [h]

theorem dispatchOrder_snoc (tr : Trace) (x : Trans State Event) :
    dispatchOrder (tr ++ [x]) = dispatchOrder tr ++ (dispatched x).toList := by
  unfold dispatchOrder
  rw [List.filterMap_append]
  cases h : dispatched x <;> simp [h]

/-- One step: what it puts on the queue goes in at the end, what it dispatches
comes off the front. -/
theorem step_ready {s s' : State} {e : Event} (h : programs.step s e s') :
    s.readyQueue ++ (readied s e.caller e.call).toList =
      (dispatched ⟨s, e, s'⟩).toList ++ s'.readyQueue := by
  have hr := exec_ready h.2
  unfold dispatched
  by_cases hh : handsOver s e.caller e.call = true
  · rw [if_pos hh] at hr ⊢
    obtain ⟨s₁, hq, rfl⟩ := hr
    rw [getNextThread_ready, hq]
  · rw [if_neg hh] at hr ⊢
    exact hr.symm

/-- A run from any state: the queue it starts with and what it puts on it, in
this order, are what it dispatches and the queue it leaves. -/
theorem run_ready {s s' : State} {tr : Trace} (h : programs.Run s tr s') :
    s.readyQueue ++ readyOrder tr = dispatchOrder tr ++ s'.readyQueue := by
  induction h with
  | nil => simp [readyOrder, dispatchOrder]
  | @snoc t u tr e _ hst ih =>
    calc s.readyQueue ++ readyOrder (tr ++ [⟨t, e, u⟩])
        = (s.readyQueue ++ readyOrder tr) ++ (readied t e.caller e.call).toList := by
          rw [readyOrder_snoc, List.append_assoc]
      _ = dispatchOrder tr ++ (t.readyQueue ++ (readied t e.caller e.call).toList) := by
          rw [ih, List.append_assoc]
      _ = dispatchOrder tr ++ ((dispatched ⟨t, e, u⟩).toList ++ u.readyQueue) := by
          rw [step_ready hst]
      _ = dispatchOrder (tr ++ [⟨t, e, u⟩]) ++ u.readyQueue := by
          rw [dispatchOrder_snoc, List.append_assoc]

/-- **The ready queue is served first in, first out.** In every state of every
run of every program the threads ever put on the ready queue are those that
`get_next_thread` has dispatched and then those in the queue, all in order.
And whoever a call puts on it behind `k` others is, from then on, the thread
of dispatch number `k`: it has run by then or is still that far back. -/
theorem fifo_dispatch {tr : Trace} {s : State} (h : programs.Run myThreadInit tr s) :
    readyOrder tr = dispatchOrder tr ++ s.readyQueue ∧
      ∀ pre x post t, tr = pre ++ x :: post → readied x.src x.label.caller x.label.call = some t →
        ∀ k, k = x.src.readyQueue.length →
          if k < (dispatchOrder (x :: post)).length then (dispatchOrder (x :: post))[k]? = some t
          else s.readyQueue[k - (dispatchOrder (x :: post)).length]? = some t := by
  constructor
  · exact run_ready h
  · intro pre x post t he ht k hk
    -- from the call on, the queue it finds comes first and the thread it puts in next
    have hrun := run_ready (h.suffix he)
    have hget : (dispatchOrder (x :: post) ++ s.readyQueue)[k]? = some t := by
      have hcons : readyOrder (x :: post) = t :: readyOrder post := List.filterMap_cons_some ht
      rw [← hrun, hk, hcons, List.getElem?_append_right le_rfl, Nat.sub_self]
      rfl
    split_ifs with hlt
    · rwa [List.getElem?_append_left hlt] at hget
    · rwa [List.getElem?_append_right (not_lt.mp hlt)] at hget

/-- Main makes two threads and yields: the first of them runs, the second and
main are ready, in this order. -/
def yieldRun : Trace :=
  let s₁ := (myThreadCreate myThreadInit 0).2
  let s₂ := (myThreadCreate s₁ 0).2
  [⟨myThreadInit, ⟨0, .create⟩, s₁⟩, ⟨s₁, ⟨0, .create⟩, s₂⟩, ⟨s₂, ⟨0, .yield⟩, myThreadYield s₂ 0⟩]

theorem fifo_dispatch_yield :
    readyOrder yieldRun = [1, 2, 0] ∧ dispatchOrder yieldRun = [1] ∧
      readyOrder yieldRun = dispatchOrder yieldRun ++ [2, 0] := by
  refine ⟨by decide, by decide, ?_⟩
  have h0 : programs.Run myThreadInit [] myThreadInit := Lts.Run.nil _
  have h1 := h0.snoc (a := ⟨0, .create⟩) (u := (myThreadCreate myThreadInit 0).2) ⟨rfl, rfl⟩
  have h2 := h1.snoc (a := ⟨0, .create⟩) (u := (myThreadCreate (myThreadCreate myThreadInit 0).2 0).2)
    ⟨rfl, rfl⟩
  exact (fifo_dispatch (h2.snoc (a := ⟨0, .yield⟩) ⟨rfl, rfl⟩)).1

/-! ### No call of a program is left undefined -/

/-- A step of a program is one that is allowed, or a request for a semaphore that is
refused. -/
theorem programs_step {s s' : State} {e : Event} (h : programs.step s e s') :
    lib.step s e s' ∨ (s' = s ∧ ∃ v, e.call = .semInit v) := by
  by_cases ha : Allowed s e.call
  · exact Or.inl ⟨h.1, ha, h.2⟩
  · obtain ⟨-, hex⟩ := h
    cases hc : e.call with
    | semInit v =>
      have hv : v < 0 := by simpa [Allowed, hc] using ha
      have hs : s = s' := by simpa [hc, exec, mySemaphoreInit, hv] using hex
      exact Or.inr ⟨hs.symm, v, rfl⟩
    | semSignal m =>
      have hm : s.sems m = none := by simpa [Allowed, hc] using ha
      simp [hc, exec, mySemaphoreSignal, hm] at hex
    | semWait m =>
      have hm : s.sems m = none := by simpa [Allowed, hc] using ha
      simp [hc, exec, mySemaphoreWait, hm] at hex
    | semDestroy m =>
      have hm : s.sems m = none := by simpa [Allowed, hc] using ha
      simp [hc, exec, mySemaphoreDestroy, hm] at hex
    | _ => simp [Allowed, hc] at ha

/-- What a program does is what an allowed program does, less the semaphores
it did not get. -/
theorem programs_lib {tr : Trace} {s : State} (h : programs.Run myThreadInit tr s) :
    ∃ tr', lib.Run myThreadInit tr' s := by
  induction h with
  | nil => exact ⟨[], Lts.Run.nil _⟩
  | snoc _ hst ih =>
    obtain ⟨tr', hr⟩ := ih
    rcases programs_step hst with hst | ⟨rfl, -⟩
    · exact ⟨_, hr.snoc hst⟩
    · exact ⟨tr', hr⟩

/-- In every state a program reaches, every call on semaphores that exist has
an outcome: no signal ever puts `NULL` on the ready queue. -/
theorem programs_total {tr : Trace} {s : State} (h : programs.Run myThreadInit tr s) (c : Tid) {call : Call}
    (ha : Allowed s call) : (exec s c call).isSome := by
  obtain ⟨tr', hr⟩ := programs_lib h
  exact exec_isSome hr c ha

end Threads
end Csc501

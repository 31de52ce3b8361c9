/-
# No thread is lost and none is duplicated

Between two calls every thread that was created and has not exited is in
exactly one place: it runs, or it is in the ready queue, the blocked queue or
the wait queue of one semaphore (`threads_conserved`). One call moves no one
in or out except the thread it creates and the thread that exits
(`Effect.count_places`).

With it go the facts the joins rest on, all kept by every call (`Inv`): a
`children` queue lists the live threads its owner created, in creation order;
`waiting_for` is set only while its thread is blocked for a live child; a
blocked thread has a child; a wait queue is as long as the count is negative.

Key definitions: `places`, `creator`, `Inv`.
Key theorems: `Effect.count_places`, `inv_step`, `inv_run`, `queues_nodup`, `threads_conserved`.
-/
import Csc501.Threads.Sched
import Mathlib.Algebra.BigOperators.Group.Finset.Basic
import Mathlib.Algebra.Order.BigOperators.Group.Finset
import Mathlib.Algebra.Order.BigOperators.Group.Multiset
import Mathlib.Data.Multiset.Count

namespace Csc501
namespace Threads

open Lib

/-- A run of the library, as its transitions. -/
abbrev Trace := List (Trans State Event)

/-! ### What a run says about its threads -/

/-- The thread has called `MyThreadExit`. -/
def exited (tr : Trace) (t : Tid) : Prop := ⟨t, .exit⟩ ∈ labels tr

instance (tr : Trace) (t : Tid) : Decidable (exited tr t) :=
  inferInstanceAs (Decidable (_ ∈ labels tr))

/-- The callers of `MyThreadCreate`, in order. -/
def creators (tr : Trace) : List Tid :=
  (labels tr).filterMap fun e => if e.call = .create then some e.caller else none

/-- The threads are numbered as they are made: thread 0 by `MyThreadInit`,
thread `n + 1` by the `n`-th `MyThreadCreate` of the run. -/
def created (tr : Trace) (t : Tid) : Prop := t ≤ (creators tr).length

/-- Who created the thread. -/
def creator (tr : Trace) : Tid → Option Tid
  | 0 => none
  | n + 1 => (creators tr)[n]?

/-- Every place a thread can be in. -/
def places (s : State) : Multiset Tid :=
  s.currentThread.toList + s.readyQueue + s.blockedQueue +
    ∑ m ∈ Finset.range s.semsMade, (s.waitQueue m : Multiset Tid)

@[simp] theorem exited_nil (t : Tid) : ¬ exited [] t := by simp [exited]

@[simp] theorem exited_snoc (tr : Trace) (s s' : State) (e : Event) (t : Tid) :
    exited (tr ++ [⟨s, e, s'⟩]) t ↔ exited tr t ∨ e = ⟨t, .exit⟩ := by
  simp [exited, eq_comm]

theorem creators_snoc (tr : Trace) (s s' : State) (e : Event) :
    creators (tr ++ [⟨s, e, s'⟩]) = creators tr ++ if e.call = .create then [e.caller] else [] := by
  simp only [creators, labels_append, labels_singleton, List.filterMap_append]
  congr 1
  split <;> simp_all

theorem creator_snoc (tr : Trace) (s s' : State) (e : Event) (t : Tid) :
    creator (tr ++ [⟨s, e, s'⟩]) t =
      if e.call = .create ∧ t = (creators tr).length + 1 then some e.caller else creator tr t := by
  cases t with
  | zero => simp [creator]
  | succ n =>
    simp only [creator, creators_snoc]
    by_cases hc : e.call = .create
    · rcases Nat.lt_trichotomy n (creators tr).length with h | h | h
      · simp [hc, h, h.ne, List.getElem?_append_left h]
      · simp [hc, h]
      · have h1 : (creators tr ++ [e.caller]).length ≤ n := by simp; omega
        simp [hc, h.ne', List.getElem?_eq_none h1, List.getElem?_eq_none h.le]
    · simp [hc]

theorem creator_lt {tr : Trace} {p t : ℕ} (h : creator tr t = some p) : t ≤ (creators tr).length := by
  cases t with
  | zero => exact Nat.zero_le _
  | succ n => exact (List.getElem?_eq_some_iff.mp h).1

/-! ### One call moves nobody else -/

/-- How often a thread waits for a semaphore. -/
def waiting (s : State) (t : Tid) : ℕ := ∑ m ∈ Finset.range s.semsMade, (s.waitQueue m).count t

theorem count_places (s : State) (t : Tid) : (places s).count t =
    s.currentThread.toList.count t + s.readyQueue.count t + s.blockedQueue.count t + waiting s t := by
  simp [places, waiting, Multiset.count_sum', Nat.add_assoc]

/-- A thread put on the ready queue. -/
theorem count_places_ready (s : State) (u t : Tid) :
    (places { s with readyQueue := enqueue s.readyQueue u }).count t =
      (places s).count t + if u = t then 1 else 0 := by
  have hw : waiting { s with readyQueue := enqueue s.readyQueue u } t = waiting s t := rfl
  rw [count_places, count_places, hw]
  dsimp only
  rw [count_enqueue]
  omega

/-- The head of the ready queue becomes the current thread. -/
theorem count_places_getNextThread (s : State) (t : Tid) : (places (getNextThread s)).count t =
    s.readyQueue.count t + s.blockedQueue.count t + waiting s t := by
  rw [count_places]
  have hw : waiting (getNextThread s) t = waiting s t := rfl
  have hr : (getNextThread s).currentThread.toList.count t + (getNextThread s).readyQueue.count t =
      s.readyQueue.count t := by
    unfold getNextThread
    cases s.readyQueue with
    | nil => simp [dequeue]
    | cons u q =>
      simp only [dequeue, Option.toList_some, List.count_cons, List.count_nil]
      omega
  rw [hr, hw, getNextThread_blocked]

theorem waitQueue_setSem (s : State) (m n : Sid) (x : Option Semaphore) :
    (s.setSem m x).waitQueue n = if n = m then (x.map Semaphore.waitQueue).getD [] else s.waitQueue n := by
  unfold State.waitQueue State.setSem
  by_cases h : n = m
  · subst h; simp
  · simp [h]

/-- A store to one semaphore exchanges its wait queue. -/
theorem waiting_setSem {s : State} {m : Sid} (hm : m < s.semsMade) (x : Option Semaphore) (t : Tid) :
    waiting (s.setSem m x) t + (s.waitQueue m).count t =
      waiting s t + ((x.map Semaphore.waitQueue).getD []).count t := by
  have hmem : m ∈ Finset.range s.semsMade := Finset.mem_range.mpr hm
  have h1 : waiting (s.setSem m x) t = ((x.map Semaphore.waitQueue).getD []).count t +
      ∑ n ∈ (Finset.range s.semsMade).erase m, (s.waitQueue n).count t := by
    unfold waiting
    rw [← Finset.add_sum_erase _ _ (show m ∈ Finset.range (s.setSem m x).semsMade from hmem)]
    congr 1
    · rw [waitQueue_setSem, if_pos rfl]
    · apply Finset.sum_congr rfl
      intro n hn
      rw [waitQueue_setSem, if_neg (Finset.ne_of_mem_erase hn)]
  have h2 : waiting s t = (s.waitQueue m).count t +
      ∑ n ∈ (Finset.range s.semsMade).erase m, (s.waitQueue n).count t :=
    (Finset.add_sum_erase _ _ hmem).symm
  omega

/-- So does the list of all places. -/
theorem count_places_setSem {s : State} {m : Sid} (hm : m < s.semsMade) (x : Option Semaphore) (t : Tid) :
    (places (s.setSem m x)).count t + (s.waitQueue m).count t =
      (places s).count t + ((x.map Semaphore.waitQueue).getD []).count t := by
  have hw := waiting_setSem hm x t
  rw [count_places, count_places]
  change s.currentThread.toList.count t + s.readyQueue.count t + s.blockedQueue.count t +
    waiting (s.setSem m x) t + _ = _
  omega

/-- A new semaphore holds nobody. -/
theorem count_places_semInit (s : State) (v : ℤ) (t : Tid) :
    (places { s.setSem s.semsMade (some ⟨v, []⟩) with semsMade := s.semsMade + 1 }).count t =
      (places s).count t := by
  have h1 : ∀ m ∈ Finset.range s.semsMade,
      ((s.setSem s.semsMade (some ⟨v, []⟩)).waitQueue m).count t = (s.waitQueue m).count t := by
    intro m hm
    rw [waitQueue_setSem, if_neg (Finset.mem_range.mp hm).ne]
  rw [count_places, count_places]
  change s.currentThread.toList.count t + s.readyQueue.count t + s.blockedQueue.count t +
    ∑ m ∈ Finset.range (s.semsMade + 1), ((s.setSem s.semsMade (some ⟨v, []⟩)).waitQueue m).count t = _
  rw [Finset.sum_range_succ, waitQueue_setSem, if_pos rfl, Finset.sum_congr rfl h1]
  simp [waiting]

/-- **One call conserves the threads**: it puts in the thread it creates,
takes out the thread that exits, and moves all others around. -/
theorem Effect.count_places {s s' : State} {c : Tid} {call : Call} (h : Effect s c call s')
    (hcur : s.currentThread = some c) (hsem : ∀ m x, s.sems m = some x → m < s.semsMade)
    (hone : ∀ t, s.blockedQueue.count t ≤ 1) (t : Tid) :
    (places s').count t + (if call = .exit ∧ c = t then 1 else 0) =
      (places s).count t + (if call = .create ∧ s.made = t then 1 else 0) := by
  have hs : (places s).count t = (if c = t then 1 else 0) + s.readyQueue.count t +
      s.blockedQueue.count t + waiting s t := by
    rw [Threads.count_places, hcur]
    simp [List.count_singleton]
  -- the caller joins the blocked queue
  have hblock : ∀ s₁ : State, s₁.readyQueue = s.readyQueue → s₁.blockedQueue = enqueue s.blockedQueue c →
      waiting s₁ t = waiting s t → (places (getNextThread s₁)).count t = (places s).count t := by
    intro s₁ hready hblocked hwaiting
    rw [count_places_getNextThread, hready, hblocked, hwaiting, count_enqueue, hs]
    omega
  have hset : ∀ {m : Sid} {x : Semaphore} (y : Option Semaphore), s.sems m = some x →
      (places (s.setSem m y)).count t + x.waitQueue.count t =
        (places s).count t + ((y.map Semaphore.waitQueue).getD []).count t := by
    intro m x y hm
    have := count_places_setSem (hsem m x hm) y t
    rwa [show s.waitQueue m = x.waitQueue by simp [State.waitQueue, hm]] at this
  cases h with
  | create =>
    have := count_places_ready s s.made t
    change (places { s with readyQueue := enqueue s.readyQueue s.made }).count t + _ = _
    simp [this]
  | yield =>
    rw [count_places_getNextThread]
    change (enqueue s.readyQueue c).count t + s.blockedQueue.count t + waiting s t + _ = _
    rw [count_enqueue, hs]
    simp
    omega
  | joinStranger _ => simp
  | joinBlock _ =>
    rw [hblock]
    · simp
    all_goals rfl
  | joinAllPass _ => simp
  | joinAllBlock _ =>
    rw [hblock]
    · simp
    all_goals rfl
  | exitRoot _ =>
    rw [count_places_getNextThread, hs]
    simp
    omega
  | exitQuiet _ _ =>
    rw [count_places_getNextThread, hs]
    change s.readyQueue.count t + s.blockedQueue.count t + waiting s t + _ = _
    simp
    omega
  | @exitWake p _ hp _ =>
    rw [count_places_getNextThread, hs]
    change (enqueue s.readyQueue p).count t + (removeNode s.blockedQueue p).count t + waiting s t + _ = _
    rw [count_enqueue, count_removeNode]
    -- the parent is in the blocked queue, and only once
    have h1 := hone p
    have h2 : 0 < s.blockedQueue.count p := List.count_pos_iff.mpr hp
    by_cases hpt : p = t
    · subst hpt
      simp
      omega
    · simp [hpt, Ne.symm hpt]
      omega
  | @semInit v _ =>
    rw [count_places_semInit]
    simp
  | @signalPass m x hm _ =>
    have := hset (some { x with count := x.count + 1 }) hm
    simp at this ⊢
    exact this
  | @signalWake m k u q hm _ =>
    have h1 := hset (some ⟨k + 1, q⟩) hm
    have h2 := count_places_ready (s.setSem m (some ⟨k + 1, q⟩)) u t
    change (places (s.setSem m _)).count t + (u :: q).count t = _ + q.count t at h1
    change (places { s.setSem m (some ⟨k + 1, q⟩) with readyQueue := enqueue s.readyQueue u }).count t = _ at h2
    rw [h2]
    simp [List.count_cons] at h1 ⊢
    omega
  | @waitPass m x hm _ =>
    have := hset (some { x with count := x.count - 1 }) hm
    simp at this ⊢
    exact this
  | @waitBlock m x hm _ =>
    have h1 := waiting_setSem (hsem m x hm) (some ⟨x.count - 1, enqueue x.waitQueue c⟩) t
    rw [show s.waitQueue m = x.waitQueue by simp [State.waitQueue, hm]] at h1
    rw [count_places_getNextThread, hs]
    change s.readyQueue.count t + s.blockedQueue.count t + waiting (s.setSem m _) t + _ = _
    simp at h1 ⊢
    omega
  | destroy hm hempty =>
    have := hset none hm
    rw [hempty] at this
    simp at this ⊢
    exact this
  | destroyRefused _ _ => simp

/-! ### What every run keeps -/

/-- The threads `p` created that have not exited, in creation order. -/
def liveChildren (tr : Trace) (p : Tid) : List Tid :=
  (List.range ((creators tr).length + 1)).filter fun t => creator tr t = some p ∧ ¬ exited tr t

@[simp] theorem mem_liveChildren {tr : Trace} {p t : ℕ} :
    t ∈ liveChildren tr p ↔ creator tr t = some p ∧ ¬ exited tr t := by
  simp only [liveChildren, List.mem_filter, List.mem_range, decide_eq_true_eq, and_iff_right_iff_imp]
  intro h
  have := creator_lt h.1
  omega

theorem liveChildren_create {tr : Trace} {s s' : State} {e : Event} (he : e.call = .create)
    (hx : ¬ exited tr ((creators tr).length + 1)) (p : Tid) :
    liveChildren (tr ++ [⟨s, e, s'⟩]) p =
      liveChildren tr p ++ if e.caller = p then [(creators tr).length + 1] else [] := by
  obtain ⟨c, call⟩ := e
  obtain rfl : call = .create := he
  simp only [liveChildren, creators_snoc, creator_snoc, exited_snoc, ↓reduceIte, List.length_append,
    List.length_singleton]
  rw [List.range_succ, List.filter_append]
  congr 1
  · apply List.filter_congr
    intro t ht
    have : t ≠ (creators tr).length + 1 := (List.mem_range.mp ht).ne
    simp [this]
  · by_cases hc : c = p
    · simp [hc, hx]
    · simp [hc]

theorem liveChildren_exit {tr : Trace} {s s' : State} {e : Event} (he : e.call = .exit) (p : Tid) :
    liveChildren (tr ++ [⟨s, e, s'⟩]) p = removeNode (liveChildren tr p) e.caller := by
  obtain ⟨c, call⟩ := e
  obtain rfl : call = .exit := he
  simp only [liveChildren, creators_snoc, creator_snoc, exited_snoc, removeNode, List.filter_filter]
  simp only [reduceCtorEq, ↓reduceIte, List.append_nil, false_and, Event.mk.injEq, and_true]
  apply List.filter_congr
  intro t _
  by_cases ht : t = c
  · simp [ht]
  · simp [ht, Ne.symm ht]

theorem liveChildren_other {tr : Trace} {s s' : State} {e : Event} (h1 : e.call ≠ .create)
    (h2 : e.call ≠ .exit) (p : Tid) : liveChildren (tr ++ [⟨s, e, s'⟩]) p = liveChildren tr p := by
  have hx : ∀ t, e ≠ ⟨t, .exit⟩ := fun t h => h2 (by rw [h])
  simp [liveChildren, creators_snoc, creator_snoc, h1, hx]

/-- **The invariant of the library.** -/
structure Inv (tr : Trace) (s : State) : Prop where
  made : s.made = (creators tr).length + 1
  exitedMade : ∀ t : ℕ, exited tr t → t < s.made
  parent : ∀ t, (s.threads t).parent = creator tr t
  older : ∀ p t : ℕ, creator tr t = some p → p < t
  children : ∀ p, (s.threads p).children = liveChildren tr p
  placed : ∀ t : ℕ, (places s).count t = if t < s.made ∧ ¬ exited tr t then 1 else 0
  waits : ∀ p t, (s.threads p).waitingFor = some t → p ∈ s.blockedQueue ∧ t ∈ (s.threads p).children
  blocked : ∀ p ∈ s.blockedQueue, (s.threads p).children ≠ []
  sems : ∀ m x, s.sems m = some x → m < s.semsMade ∧ (x.waitQueue.length : ℤ) = max 0 (-x.count)

theorem inv_init : Inv [] myThreadInit where
  made := rfl
  exitedMade t h := absurd h (exited_nil t)
  parent t := by cases t <;> simp [myThreadInit, creator, creators]
  older p t h := by cases t <;> simp [creator, creators] at h
  children p := by
    refine (List.filter_eq_nil_iff.mpr fun t _ => ?_).symm
    cases t <;> simp [creator, creators]
  placed t := by
    rw [count_places]
    cases t <;> simp [myThreadInit, makeQueue, waiting]
  waits p t h := by simp [myThreadInit] at h
  blocked p h := by simp [myThreadInit, makeQueue] at h
  sems m x h := by simp [myThreadInit] at h

section Step

variable {tr : Trace} {s s' : State} {c : Tid} {call : Call}

theorem Inv.running (hI : Inv tr s) (hcur : s.currentThread = some c) : c < s.made ∧ ¬ exited tr c := by
  have h1 := hI.placed c
  rw [count_places, hcur] at h1
  by_contra hc
  rw [if_neg hc] at h1
  simp at h1

theorem Inv.blocked_count (hI : Inv tr s) (t : Tid) : s.blockedQueue.count t ≤ 1 := by
  have h1 := hI.placed t
  rw [count_places] at h1
  split at h1 <;> omega

theorem Inv.running_not_blocked (hI : Inv tr s) (hcur : s.currentThread = some c) :
    c ∉ s.blockedQueue := by
  intro hb
  have h1 := hI.placed c
  rw [count_places, hcur] at h1
  have h2 : 0 < s.blockedQueue.count c := List.count_pos_iff.mpr hb
  simp at h1
  split at h1 <;> omega

theorem Inv.parent_ne (hI : Inv tr s) (t : Tid) : (s.threads t).parent ≠ some t := fun h =>
  (hI.older t t (hI.parent t ▸ h)).ne rfl

/-- The thread that is made next has no children. -/
theorem Inv.children_made (hI : Inv tr s) : (s.threads s.made).children = [] := by
  rw [hI.children, List.eq_nil_iff_forall_not_mem]
  intro t ht
  have h1 := (mem_liveChildren.mp ht).1
  have h2 := creator_lt h1
  have h3 := hI.older _ _ h1
  have h4 := hI.made
  omega

theorem Inv.mem_children (hI : Inv tr s) {p t : Tid} (h : t ∈ (s.threads p).children) :
    (s.threads t).parent = some p := by
  rw [hI.children, mem_liveChildren] at h
  rw [hI.parent]
  exact h.1

theorem Effect.made (h : Effect s c call s') :
    s'.made = s.made + if call = .create then 1 else 0 := by
  cases h <;> simp [State.modify, State.setSem]

theorem Effect.parent (h : Effect s c call s') (hI : Inv tr s) (hcur : s.currentThread = some c) (t : Tid) :
    (s'.threads t).parent = if call = .create ∧ t = s.made then some c else (s.threads t).parent := by
  have hc : c ≠ s.made := (hI.running hcur).1.ne
  cases h with
  | create =>
    by_cases h1 : t = c
    · subst h1; simp [hc]
    · by_cases h2 : t = s.made
      · subst h2; simp [Function.update, h1]
      · simp [Function.update, h1, h2]
  | @joinBlock u hu =>
    have hp := hI.mem_children hu
    by_cases h1 : t = c
    · subst h1
      by_cases h2 : t = u
      · exact absurd (h2 ▸ hp) (hI.parent_ne u)
      · simp [State.modify, Function.update, h2]
    · by_cases h2 : t = u
      · subst h2; simp [State.modify, Function.update, h1, hp]
      · simp [State.modify, Function.update, h1, h2]
  | @exitQuiet p _ _ => by_cases h1 : t = p <;> simp [State.modify, Function.update, h1]
  | @exitWake p _ _ _ => by_cases h1 : t = p <;> simp [State.modify, Function.update, h1]
  | _ => simp [State.setSem]

/-- The `children` queues change at a create and at an exit only. -/
theorem Effect.children (h : Effect s c call s') (hI : Inv tr s) (hcur : s.currentThread = some c) (p : Tid) :
    (s'.threads p).children =
      if call = .create then (s.threads p).children ++ (if c = p then [s.made] else [])
      else if call = .exit then removeNode (s.threads p).children c
      else (s.threads p).children := by
  have hc : c ≠ s.made := (hI.running hcur).1.ne
  -- the exiting thread is in no queue but its parent's
  have hno : (s.threads c).parent ≠ some p → removeNode (s.threads p).children c = (s.threads p).children := by
    intro hp
    apply List.filter_eq_self.mpr
    intro t ht
    have : t ≠ c := fun h => hp (h ▸ hI.mem_children ht)
    simpa using this
  cases h with
  | create =>
    by_cases h1 : p = c
    · subst h1; simp [hc, enqueue]
    · by_cases h2 : p = s.made
      · subst h2; simp [Function.update, h1, hc, hI.children_made]
      · simp [Function.update, h1, h2, Ne.symm h1]
  | @joinBlock u hu =>
    by_cases h1 : p = c
    · subst h1
      by_cases h2 : p = u <;> simp [State.modify, Function.update, h2]
    · by_cases h2 : p = u
      · subst h2; simp [State.modify, Function.update, h1]
      · simp [State.modify, Function.update, h1, h2]
  | exitRoot hp => simp [hno (by simp [hp])]
  | @exitQuiet q hp _ =>
    by_cases h1 : p = q
    · subst h1; simp [State.modify]
    · simp [State.modify, Function.update, h1, hno (by simp [hp, Ne.symm h1])]
  | @exitWake q hp _ _ =>
    by_cases h1 : p = q
    · subst h1; simp [State.modify]
    · simp [State.modify, Function.update, h1, hno (by simp [hp, Ne.symm h1])]
  | _ => simp [State.setSem]

/-- `waiting_for` is set by the join of its thread, and cleared when its
thread leaves the blocked queue. -/
theorem Effect.waitingFor (h : Effect s c call s') (hI : Inv tr s) (hcur : s.currentThread = some c)
    {p t : Tid} (hw : (s'.threads p).waitingFor = some t) :
    (p = c ∧ call = .join t ∧ t ∈ (s.threads c).children ∧ p ∈ s'.blockedQueue) ∨
    ((s.threads p).waitingFor = some t ∧ p ∈ s'.blockedQueue) := by
  have hc : c ≠ s.made := (hI.running hcur).1.ne
  have hb : (s.threads p).waitingFor = some t → p ∈ s.blockedQueue := fun h => (hI.waits p t h).1
  cases h with
  | create =>
    right
    by_cases h1 : p = c
    · subst h1
      have hw' : (s.threads p).waitingFor = some t := by simpa [hc] using hw
      exact ⟨hw', hb hw'⟩
    · by_cases h2 : p = s.made
      · subst h2; simp [h1] at hw
      · have hw' : (s.threads p).waitingFor = some t := by simpa [Function.update, h1, h2] using hw
        exact ⟨hw', hb hw'⟩
  | @joinBlock u hu =>
    by_cases h1 : p = c
    · subst h1
      obtain rfl : u = t := by simpa [State.modify] using hw
      exact Or.inl ⟨rfl, rfl, hu, by simp⟩
    · right
      have hw' : (s.threads p).waitingFor = some t := by
        by_cases h2 : p = u
        · subst h2; simpa [State.modify, Function.update, h1] using hw
        · simpa [State.modify, Function.update, h1, h2] using hw
      exact ⟨hw', by simp [hb hw']⟩
  | joinAllBlock _ => exact Or.inr ⟨hw, by simp [hb hw]⟩
  | @exitQuiet q _ _ =>
    have hw' : (s.threads p).waitingFor = some t := by
      by_cases h1 : p = q
      · subst h1; simpa [State.modify] using hw
      · simpa [State.modify, Function.update, h1] using hw
    exact Or.inr ⟨hw', hb hw'⟩
  | @exitWake q _ _ _ =>
    by_cases h1 : p = q
    · subst h1; simp [State.modify] at hw
    · have hw' : (s.threads p).waitingFor = some t := by
        simpa [State.modify, Function.update, h1] using hw
      exact Or.inr ⟨hw', by simp [hb hw', h1]⟩
  | _ => exact Or.inr ⟨hw, hb hw⟩

theorem Effect.waits (h : Effect s c call s') (hI : Inv tr s) (hcur : s.currentThread = some c) (p t : Tid)
    (hw : (s'.threads p).waitingFor = some t) :
    p ∈ s'.blockedQueue ∧ t ∈ (s'.threads p).children := by
  rw [h.children hI hcur p]
  rcases h.waitingFor hI hcur hw with ⟨rfl, rfl, ht, hb⟩ | ⟨hw', hb⟩
  · exact ⟨hb, by simpa using ht⟩
  · refine ⟨hb, ?_⟩
    have ht := (hI.waits p t hw').2
    split_ifs with _ _ h2
    · exact List.mem_append_left _ ht
    · exact List.mem_append_left _ ht
    · -- had the awaited child exited, its parent would have been woken
      subst h2
      refine mem_removeNode.mpr ⟨ht, fun htc => ?_⟩
      subst htc
      have hp := hI.mem_children ht
      cases h with
      | exitRoot h => rw [hp] at h; cases h
      | exitQuiet h hn =>
        obtain rfl := Option.some.inj (hp.symm.trans h)
        exact hn ⟨(hI.waits p t hw').1, Or.inr hw'⟩
      | exitWake h _ _ =>
        obtain rfl := Option.some.inj (hp.symm.trans h)
        simp at hb
    · exact ht

/-- Who is blocked after the call: it called a join itself, or was blocked
before; and its last child has not exited. -/
theorem Effect.blocked (h : Effect s c call s') (hI : Inv tr s) (hcur : s.currentThread = some c) {p : Tid}
    (hb : p ∈ s'.blockedQueue) : (s'.threads p).children ≠ [] := by
  have hch := h.children hI hcur p
  have hold : p ∈ s.blockedQueue → (s.threads p).children ≠ [] := hI.blocked p
  cases h with
  | create =>
    rw [hch]
    have := hold hb
    simp [this]
  | @joinBlock u hu =>
    rw [hch]
    simp only [reduceCtorEq, ↓reduceIte]
    rcases mem_enqueue.mp hb with hb | rfl
    · exact hold hb
    · exact List.ne_nil_of_mem hu
  | joinAllBlock hne =>
    rw [hch]
    simp only [reduceCtorEq, ↓reduceIte]
    rcases mem_enqueue.mp hb with hb | rfl
    · exact hold hb
    · exact hne
  | exitRoot hp =>
    change (s.threads p).children ≠ []
    exact hold hb
  | @exitQuiet q hp hn =>
    rw [hch]
    simp only [reduceCtorEq, ↓reduceIte]
    intro hnil
    have hb' : p ∈ s.blockedQueue := hb
    by_cases h1 : q = p
    · subst h1
      exact hn ⟨hb', Or.inl hnil⟩
    · have hc : c ∉ (s.threads p).children := fun hc =>
        h1 (Option.some.inj (hp.symm.trans (hI.mem_children hc)))
      refine hold hb' (List.eq_nil_iff_forall_not_mem.mpr fun t ht => ?_)
      have : t ∈ removeNode (s.threads p).children c := mem_removeNode.mpr ⟨ht, fun h => hc (h ▸ ht)⟩
      rw [hnil] at this
      cases this
  | @exitWake q hp _ _ =>
    obtain ⟨hb', hne⟩ := mem_removeNode.mp hb
    rw [hch]
    simp only [reduceCtorEq, ↓reduceIte]
    intro hnil
    have hc : c ∉ (s.threads p).children := fun hc =>
      hne (Option.some.inj ((hI.mem_children hc).symm.trans hp))
    refine hold hb' (List.eq_nil_iff_forall_not_mem.mpr fun t ht => ?_)
    have : t ∈ removeNode (s.threads p).children c := mem_removeNode.mpr ⟨ht, fun h => hc (h ▸ ht)⟩
    rw [hnil] at this
    cases this
  | _ => exact hold hb

/-- Everyone who was created and has not exited is still in one place. -/
theorem Effect.placed (h : Effect s c call s') (hI : Inv tr s) (hcur : s.currentThread = some c) (t : ℕ) :
    (places s').count t =
      if t < s'.made ∧ ¬ exited (tr ++ [⟨s, ⟨c, call⟩, s'⟩]) t then 1 else 0 := by
  have h1 := h.count_places hcur (fun m x hx => (hI.sems m x hx).1) hI.blocked_count t
  rw [hI.placed t] at h1
  have hnew := hI.exitedMade t
  obtain ⟨hc, hcx⟩ := hI.running hcur
  simp only [exited_snoc, Event.mk.injEq, not_or]
  rw [h.made]
  by_cases h2 : call = .create
  · subst h2
    simp only [reduceCtorEq, false_and, ↓reduceIte, Nat.add_zero, true_and, and_false,
      not_false_eq_true, and_true] at h1 ⊢
    by_cases hx : exited tr t
    · have := hnew hx
      simp only [hx, not_true_eq_false, and_false, ↓reduceIte] at h1 ⊢
      split_ifs at h1 <;> omega
    · simp only [hx, not_false_eq_true, and_true] at h1 ⊢
      split_ifs at h1 ⊢ <;> omega
  · by_cases h3 : call = .exit
    · subst h3
      simp only [reduceCtorEq, false_and, ↓reduceIte, Nat.add_zero, true_and, and_true] at h1 ⊢
      by_cases hct : c = t
      · subst hct
        simpa [hc, hcx] using h1
      · simpa [hct] using h1
    · simpa [h2, h3] using h1

/-- The queue of a semaphore is as long as its count is below zero. -/
theorem Effect.sems (h : Effect s c call s') (hI : Inv tr s) (m : Sid) (x : Semaphore)
    (hx : s'.sems m = some x) :
    m < s'.semsMade ∧ (x.waitQueue.length : ℤ) = max 0 (-x.count) := by
  have hset : ∀ {n : Sid} {y : Semaphore} (z : Option Semaphore), s.sems n = some y →
      (∀ w, z = some w → (w.waitQueue.length : ℤ) = max 0 (-w.count)) →
      (s.setSem n z).sems m = some x →
        m < s.semsMade ∧ (x.waitQueue.length : ℤ) = max 0 (-x.count) := by
    intro n y z hn hz hx
    by_cases h1 : m = n
    · subst h1
      exact ⟨(hI.sems m y hn).1, hz x (by simpa [State.setSem] using hx)⟩
    · exact hI.sems m x (by simpa [State.setSem, Function.update, h1] using hx)
  cases h with
  | semInit hv =>
    by_cases h1 : m = s.semsMade
    · subst h1
      obtain rfl := Option.some.inj (by simpa [State.setSem] using hx)
      refine ⟨by simp, ?_⟩
      simpa using hv
    · have := hI.sems m x (by simpa [State.setSem, Function.update, h1] using hx)
      exact ⟨Nat.lt_succ_of_lt this.1, this.2⟩
  | signalPass hm hk =>
    refine hset (some _) hm (fun w hw => ?_) hx
    obtain rfl := Option.some.inj hw
    have := (hI.sems _ _ hm).2
    dsimp only
    omega
  | signalWake hm hk =>
    refine hset (some _) hm (fun w hw => ?_) hx
    obtain rfl := Option.some.inj hw
    have := (hI.sems _ _ hm).2
    simp only [List.length_cons] at this ⊢
    omega
  | waitPass hm hk =>
    refine hset (some _) hm (fun w hw => ?_) hx
    obtain rfl := Option.some.inj hw
    have := (hI.sems _ _ hm).2
    dsimp only
    omega
  | waitBlock hm hk =>
    refine hset (some _) hm (fun w hw => ?_) hx
    obtain rfl := Option.some.inj hw
    have := (hI.sems _ _ hm).2
    simp only [enqueue, List.length_append, List.length_singleton]
    omega
  | destroy hm _ => exact hset none hm (fun w hw => by cases hw) hx
  | _ => exact hI.sems m x hx

end Step

/-- Every call keeps the invariant. -/
theorem inv_step {tr : Trace} {s s' : State} {e : Event} (hI : Inv tr s) (h : lib.step s e s') :
    Inv (tr ++ [⟨s, e, s'⟩]) s' := by
  obtain ⟨hcur, hal, hex⟩ := h
  obtain ⟨c, call⟩ := e
  have he : Effect s c call s' := exec_effect (hI.parent_ne c) hal hex
  have hrun := hI.running hcur
  have hmade := he.made
  have hlen := hI.made
  have hnx : ¬ exited tr ((creators tr).length + 1) := fun h => by
    have := hI.exitedMade _ h
    omega
  refine ⟨?_, ?_, ?_, ?_, ?_, ?_, he.waits hI hcur, fun p hp => he.blocked hI hcur hp, he.sems hI⟩
  · rw [hmade, hlen, creators_snoc]
    split_ifs <;> simp
  · intro t ht
    rcases (exited_snoc ..).mp ht with ht | ht
    · have := hI.exitedMade t ht
      omega
    · obtain ⟨rfl, rfl⟩ := Event.mk.inj ht
      exact hmade ▸ hrun.1
  · intro t
    rw [he.parent hI hcur t, creator_snoc, hI.parent, ← hlen]
  · intro p t ht
    rw [creator_snoc] at ht
    split_ifs at ht with h1
    · obtain rfl := Option.some.inj ht
      rw [h1.2, ← hlen]
      exact hrun.1
    · exact hI.older p t ht
  · intro p
    rw [he.children hI hcur p, hI.children]
    by_cases h1 : call = .create
    · rw [if_pos h1, liveChildren_create h1 hnx, hlen]
    · by_cases h2 : call = .exit
      · rw [if_neg h1, if_pos h2, liveChildren_exit h2]
      · rw [if_neg h1, if_neg h2, liveChildren_other h1 h2]
  · exact he.placed hI hcur

theorem inv_run {tr : Trace} {s : State} (h : lib.Run myThreadInit tr s) : Inv tr s :=
  Lts.Run.invariant inv_init (fun _ _ _ _ _ hI hst => inv_step hI hst) h

theorem Inv.lt_made {tr : Trace} {s : State} (h : Inv tr s) {t : Tid} (ht : created tr t) : t < s.made :=
  h.made ▸ Nat.lt_succ_of_le ht

/-- No queue holds a thread twice, as the linked queues of `Threads.LinkedQueue` need it. -/
theorem queues_nodup {tr : Trace} {s : State} (h : lib.Run myThreadInit tr s) :
    s.readyQueue.Nodup ∧ s.blockedQueue.Nodup ∧ (∀ m, (s.waitQueue m).Nodup) ∧ ∀ p, (s.threads p).children.Nodup := by
  have hI := inv_run h
  have hone : ∀ t, s.readyQueue.count t + s.blockedQueue.count t + waiting s t ≤ 1 := by
    intro t
    have hp := hI.placed t
    rw [count_places] at hp
    split at hp <;> omega
  refine ⟨?_, ?_, ?_, ?_⟩
  · exact List.nodup_iff_count_le_one.mpr fun t => by have := hone t; omega
  · exact List.nodup_iff_count_le_one.mpr hI.blocked_count
  · intro m
    cases hm : s.sems m with
    | none => simp [State.waitQueue, hm]
    | some x =>
      have hlt : m ∈ Finset.range s.semsMade := Finset.mem_range.mpr (hI.sems m x hm).1
      apply List.nodup_iff_count_le_one.mpr
      intro t
      have hle : (s.waitQueue m).count t ≤ waiting s t :=
        Finset.single_le_sum (f := fun n => (s.waitQueue n).count t) (fun _ _ => Nat.zero_le _) hlt
      have := hone t
      omega
  · intro p
    rw [hI.children]
    exact List.nodup_range.filter _

/-- **No thread is lost, none is duplicated.** In every state of every run
each created thread that has not exited is in exactly one place, once, and a
thread that has exited is in none. -/
theorem threads_conserved {tr : Trace} {s : State} (h : lib.Run myThreadInit tr s) (t : Tid)
    (ht : created tr t) : (places s).count t = if exited tr t then 0 else 1 := by
  have hI := inv_run h
  have h1 : t < s.made := hI.lt_made ht
  rw [hI.placed t]
  simp [h1]

/-- Main creates a thread: both are in one place. -/
theorem threads_conserved_create :
    (places (myThreadCreate myThreadInit 0).2).count 0 = 1 ∧
      (places (myThreadCreate myThreadInit 0).2).count 1 = 1 := by
  have h : lib.Run myThreadInit [⟨myThreadInit, ⟨0, .create⟩, (myThreadCreate myThreadInit 0).2⟩]
      (myThreadCreate myThreadInit 0).2 := Lts.Run.single ⟨rfl, trivial, rfl⟩
  exact ⟨threads_conserved h 0 (Nat.zero_le _), threads_conserved h 1 le_rfl⟩

end Threads
end Csc501

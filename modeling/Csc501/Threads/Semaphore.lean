/-
# Semaphores count right and wake in order

Whatever the threads do between its calls, a semaphore started at `v` has,
after `W` waits and `S` signals, the count `v + S - W` and a wait queue of
`max 0 (W - v - S)` threads; `min W (v + S)` of the waits have been granted,
and those that blocked are granted in the order in which they blocked
(`semaphore_fifo`). So a signal that finds a count that is not positive finds
somebody to wake, and a semaphore can be destroyed exactly when its count is
not negative.

The waits, the signals and the grants are read off the run: a wait blocked if
its caller is in the wait queue after the call, and a thread is woken by the
step in which it leaves the wait queue.

Key definitions: `waits`, `signals`, `blockedOrder`, `wokenOrder`, `granted`.
Key theorems: `Effect.waitQueue`, `semHist_step`, `semaphore_fifo`.
-/
import Csc501.Threads.Conserve
import Mathlib.Algebra.Order.BigOperators.Group.Finset

namespace Csc501
namespace Threads

open Lib

/-! ### The history of a semaphore -/

/-- The initial value of the semaphore a call makes. -/
def Call.initial : Call → Option ℤ
  | .semInit v => some v
  | _ => none

/-- The initial values, in the order of the `MySemaphoreInit` calls: semaphore
`m` is made by the `m`-th. -/
def initials (tr : Trace) : List ℤ := (labels tr).filterMap fun e => e.call.initial

/-- How often `MySemaphoreWait` was called. -/
def waits (tr : Trace) (m : Sid) : ℕ := (labels tr).countP fun e => e.call = .semWait m

/-- How often `MySemaphoreSignal` was called. -/
def signals (tr : Trace) (m : Sid) : ℕ := (labels tr).countP fun e => e.call = .semSignal m

/-- The thread that a step blocks on the semaphore. -/
def blockedIn (m : Sid) (x : Trans State Event) : List Tid :=
  if x.label.call = .semWait m ∧ x.label.caller ∈ x.dst.waitQueue m then [x.label.caller] else []

/-- The threads that leave the wait queue in a step. -/
def wokenIn (m : Sid) (x : Trans State Event) : List Tid :=
  (x.src.waitQueue m).filter fun t => t ∉ x.dst.waitQueue m

/-- The waits that blocked, in the order in which they did. -/
def blockedOrder (tr : Trace) (m : Sid) : List Tid := tr.flatMap (blockedIn m)

/-- The blocked waits that were granted, in the order in which they were. -/
def wokenOrder (tr : Trace) (m : Sid) : List Tid := tr.flatMap (wokenIn m)

/-- The waits that did not block. -/
def passed (tr : Trace) (m : Sid) : ℕ :=
  tr.countP fun x => x.label.call = .semWait m ∧ x.label.caller ∉ x.dst.waitQueue m

/-- The waits that have been granted, at once or later. -/
def granted (tr : Trace) (m : Sid) : ℕ := passed tr m + (wokenOrder tr m).length

section Snoc

variable (tr : Trace) (x : Trans State Event) (m : Sid)

theorem initials_snoc : initials (tr ++ [x]) = initials tr ++ x.label.call.initial.toList := by
  rw [initials, labels_append, List.filterMap_append]
  congr 1

theorem waits_snoc : waits (tr ++ [x]) m = waits tr m + if x.label.call = .semWait m then 1 else 0 := by
  simp [waits, List.countP_append, List.countP_singleton]

theorem signals_snoc :
    signals (tr ++ [x]) m = signals tr m + if x.label.call = .semSignal m then 1 else 0 := by
  simp [signals, List.countP_append, List.countP_singleton]

theorem blockedOrder_snoc : blockedOrder (tr ++ [x]) m = blockedOrder tr m ++ blockedIn m x := by
  simp [blockedOrder]

theorem wokenOrder_snoc : wokenOrder (tr ++ [x]) m = wokenOrder tr m ++ wokenIn m x := by
  simp [wokenOrder]

theorem passed_snoc : passed (tr ++ [x]) m = passed tr m +
    if x.label.call = .semWait m ∧ x.label.caller ∉ x.dst.waitQueue m then 1 else 0 := by
  simp [passed, List.countP_append, List.countP_singleton]

end Snoc

/-! ### What a call does to one semaphore -/

section Step

variable {tr : Trace} {s s' : State} {c : Tid} {call : Call}

theorem waitQueue_of_some {m : Sid} {x : Semaphore} (h : s.sems m = some x) : s.waitQueue m = x.waitQueue := by
  simp [State.waitQueue, h]

theorem waitQueue_of_none {m : Sid} (h : s.sems m = none) : s.waitQueue m = [] := by
  simp [State.waitQueue, h]

theorem Inv.sems_made (hI : Inv tr s) {m : Sid} (h : s.semsMade ≤ m) : s.sems m = none := by
  cases hm : s.sems m with
  | none => rfl
  | some x => exact absurd (hI.sems m x hm).1 (not_lt.mpr h)

/-- A thread that runs waits for nobody, and nobody waits twice. -/
theorem Inv.waitQueue_count (hI : Inv tr s) (t : Tid) (m : Sid) :
    s.currentThread.toList.count t + (s.waitQueue m).count t ≤ 1 := by
  cases hm : s.sems m with
  | none =>
    rw [waitQueue_of_none hm]
    cases s.currentThread with
    | none => simp
    | some c => simp [List.count_singleton]; split <;> omega
  | some x =>
    have h1 := hI.placed t
    rw [count_places] at h1
    have h2 : (s.waitQueue m).count t ≤ waiting s t :=
      Finset.single_le_sum (f := fun m => (s.waitQueue m).count t) (fun _ _ => Nat.zero_le _)
        (Finset.mem_range.mpr (hI.sems m x hm).1)
    split at h1 <;> omega

theorem Inv.running_not_waiting (hI : Inv tr s) (hcur : s.currentThread = some c) (m : Sid) :
    c ∉ s.waitQueue m := by
  intro h
  have h1 := hI.waitQueue_count c m
  have h2 : 0 < (s.waitQueue m).count c := List.count_pos_iff.mpr h
  rw [hcur] at h1
  simp at h1
  omega

/-- What a call did to a semaphore that is allocated after it. -/
theorem Effect.sem (h : Effect s c call s') {m : Sid} {x' : Semaphore} (hx' : s'.sems m = some x') :
    (∃ v, call = .semInit v ∧ m = s.semsMade ∧ x' = ⟨v, []⟩) ∨
    ∃ x, s.sems m = some x ∧
      ((call = .semSignal m ∧ x'.count = x.count + 1 ∧
          (x'.waitQueue = x.waitQueue ∨ ∃ t, x.waitQueue = t :: x'.waitQueue)) ∨
       (call = .semWait m ∧ x'.count = x.count - 1 ∧
          (x'.waitQueue = x.waitQueue ∨ x'.waitQueue = x.waitQueue ++ [c])) ∨
       (call ≠ .semSignal m ∧ call ≠ .semWait m ∧ x' = x)) := by
  have hself : ∀ {z : Option Semaphore}, (s.setSem m z).sems m = some x' → z = some x' := by
    intro z h
    simpa [State.setSem] using h
  have hother : ∀ {n : Sid} {z : Option Semaphore}, n ≠ m → (s.setSem n z).sems m = some x' →
      s.sems m = some x' := by
    intro n z hn h
    simpa [State.setSem, Function.update, Ne.symm hn] using h
  cases h with
  | @semInit v _ =>
    by_cases h1 : s.semsMade = m
    · subst h1
      obtain rfl := Option.some.inj (hself hx')
      exact Or.inl ⟨v, rfl, rfl, rfl⟩
    · exact Or.inr ⟨x', hother h1 hx', Or.inr (Or.inr ⟨by simp, by simp, rfl⟩)⟩
  | @signalPass n x hn _ =>
    right
    by_cases h1 : n = m
    · subst h1
      obtain rfl := Option.some.inj (hself hx')
      exact ⟨x, hn, Or.inl ⟨rfl, rfl, Or.inl rfl⟩⟩
    · exact ⟨x', hother h1 hx', Or.inr (Or.inr ⟨by simp [h1], by simp, rfl⟩)⟩
  | @signalWake n k t q hn _ =>
    right
    by_cases h1 : n = m
    · subst h1
      obtain rfl := Option.some.inj (hself hx')
      exact ⟨_, hn, Or.inl ⟨rfl, rfl, Or.inr ⟨t, rfl⟩⟩⟩
    · exact ⟨x', hother h1 hx', Or.inr (Or.inr ⟨by simp [h1], by simp, rfl⟩)⟩
  | @waitPass n x hn _ =>
    right
    by_cases h1 : n = m
    · subst h1
      obtain rfl := Option.some.inj (hself hx')
      exact ⟨x, hn, Or.inr (Or.inl ⟨rfl, rfl, Or.inl rfl⟩)⟩
    · exact ⟨x', hother h1 hx', Or.inr (Or.inr ⟨by simp, by simp [h1], rfl⟩)⟩
  | @waitBlock n x hn _ =>
    right
    by_cases h1 : n = m
    · subst h1
      obtain rfl := Option.some.inj (hself hx')
      exact ⟨x, hn, Or.inr (Or.inl ⟨rfl, rfl, Or.inr rfl⟩)⟩
    · exact ⟨x', hother h1 hx', Or.inr (Or.inr ⟨by simp, by simp [h1], rfl⟩)⟩
  | @destroy n x hn _ =>
    right
    by_cases h1 : n = m
    · subst h1
      cases hself hx'
    · exact ⟨x', hother h1 hx', Or.inr (Or.inr ⟨by simp, by simp, rfl⟩)⟩
  | _ => exact Or.inr ⟨x', hx', Or.inr (Or.inr ⟨by simp, by simp, rfl⟩)⟩

theorem Effect.semsMade (h : Effect s c call s') :
    s'.semsMade = s.semsMade + call.initial.toList.length := by
  cases h <;> rfl

/-- Only the caller of a wait joins a wait queue. -/
theorem Effect.mem_waitQueue (h : Effect s c call s') {m : Sid} {t : Tid} (ht : t ∈ s'.waitQueue m) :
    t ∈ s.waitQueue m ∨ (t = c ∧ call = .semWait m) := by
  cases hm : s'.sems m with
  | none => rw [waitQueue_of_none hm] at ht; cases ht
  | some x' =>
    rw [waitQueue_of_some hm] at ht
    rcases h.sem hm with ⟨v, -, -, rfl⟩ | ⟨x, hx, hcase⟩
    · cases ht
    · rw [waitQueue_of_some hx]
      rcases hcase with ⟨-, -, hq | ⟨u, hq⟩⟩ | ⟨hcall, -, hq | hq⟩ | ⟨-, -, rfl⟩
      · exact Or.inl (hq ▸ ht)
      · exact Or.inl (hq ▸ List.mem_cons_of_mem _ ht)
      · exact Or.inl (hq ▸ ht)
      · rw [hq] at ht
        rcases List.mem_append.mp ht with ht | ht
        · exact Or.inl ht
        · exact Or.inr ⟨List.mem_singleton.mp ht, hcall⟩
      · exact Or.inl ht

end Step

/-! ### What a run says about a semaphore -/

/-- The history of the semaphores agrees with their state. -/
structure SemHist (tr : Trace) (s : State) : Prop where
  len : (initials tr).length = s.semsMade
  nonneg : ∀ v ∈ initials tr, 0 ≤ v
  fresh : ∀ m, s.semsMade ≤ m → waits tr m = 0 ∧ signals tr m = 0 ∧ passed tr m = 0 ∧
    blockedOrder tr m = [] ∧ wokenOrder tr m = []
  live : ∀ m x, s.sems m = some x → ∃ v, (initials tr)[m]? = some v ∧
    x.count = v + signals tr m - waits tr m ∧
    blockedOrder tr m = wokenOrder tr m ++ x.waitQueue ∧
    passed tr m + (blockedOrder tr m).length = waits tr m

theorem semHist_init : SemHist [] myThreadInit where
  len := rfl
  nonneg v h := by simp [initials] at h
  fresh m _ := ⟨rfl, rfl, rfl, rfl, rfl⟩
  live m x h := by simp [myThreadInit] at h

theorem wokenIn_of_subset {m : Sid} {x : Trans State Event}
    (h : ∀ t ∈ x.src.waitQueue m, t ∈ x.dst.waitQueue m) : wokenIn m x = [] :=
  List.filter_eq_nil_iff.mpr fun t ht => by simpa using h t ht

section Step

variable {tr : Trace} {s s' : State} {e : Event}

/-- A semaphore that is not made yet has no history. -/
theorem SemHist.fresh_step (hH : SemHist tr s) (hI : Inv tr s) (ha : Allowed s e.call)
    {m : Sid} (hm : s.semsMade ≤ m) :
    waits (tr ++ [⟨s, e, s'⟩]) m = 0 ∧ signals (tr ++ [⟨s, e, s'⟩]) m = 0 ∧
      passed (tr ++ [⟨s, e, s'⟩]) m = 0 ∧ blockedOrder (tr ++ [⟨s, e, s'⟩]) m = [] ∧
      wokenOrder (tr ++ [⟨s, e, s'⟩]) m = [] := by
  have hnone := hI.sems_made hm
  obtain ⟨h1, h2, h3, h4, h5⟩ := hH.fresh m hm
  have hw : e.call ≠ .semWait m := fun h => by simp [h, Allowed, hnone] at ha
  have hs : e.call ≠ .semSignal m := fun h => by simp [h, Allowed, hnone] at ha
  have hk : wokenIn m ⟨s, e, s'⟩ = [] := by simp [wokenIn, waitQueue_of_none hnone]
  rw [waits_snoc, signals_snoc, passed_snoc, blockedOrder_snoc, wokenOrder_snoc, hk]
  simp [h1, h2, h3, h4, h5, hw, hs, blockedIn]

/-- The history of an allocated semaphore follows its state. -/
theorem SemHist.live_step (hH : SemHist tr s) (hI : Inv tr s) (hcur : s.currentThread = some e.caller)
    (he : Effect s e.caller e.call s') {m : Sid} {x' : Semaphore} (hx' : s'.sems m = some x') :
    ∃ v, (initials (tr ++ [⟨s, e, s'⟩]))[m]? = some v ∧
      x'.count = v + signals (tr ++ [⟨s, e, s'⟩]) m - waits (tr ++ [⟨s, e, s'⟩]) m ∧
      blockedOrder (tr ++ [⟨s, e, s'⟩]) m = wokenOrder (tr ++ [⟨s, e, s'⟩]) m ++ x'.waitQueue ∧
      passed (tr ++ [⟨s, e, s'⟩]) m + (blockedOrder (tr ++ [⟨s, e, s'⟩]) m).length =
        waits (tr ++ [⟨s, e, s'⟩]) m := by
  rw [waits_snoc, signals_snoc, passed_snoc, blockedOrder_snoc, wokenOrder_snoc, initials_snoc]
  have hq' : s'.waitQueue m = x'.waitQueue := waitQueue_of_some hx'
  rcases he.sem hx' with ⟨v, hcall, rfl, rfl⟩ | ⟨x, hx, hcase⟩
  · -- the call makes the semaphore
    obtain ⟨h1, h2, h3, h4, h5⟩ := hH.fresh s.semsMade le_rfl
    have hk : wokenIn s.semsMade ⟨s, e, s'⟩ = [] := by
      simp [wokenIn, waitQueue_of_none (hI.sems_made le_rfl)]
    refine ⟨v, ?_, ?_, ?_, ?_⟩
    · simp [hcall, ← hH.len, Call.initial]
    · simp [hcall, h1, h2]
    · simp [hcall, h4, h5, hk, blockedIn]
    · simp [hcall, h1, h3, h4, blockedIn]
  · obtain ⟨v, hv, hcount, horder, hwaits⟩ := hH.live m x hx
    have hq : s.waitQueue m = x.waitQueue := waitQueue_of_some hx
    have hlt : m < (initials tr).length := (List.getElem?_eq_some_iff.mp hv).1
    refine ⟨v, by rw [List.getElem?_append_left hlt]; exact hv, ?_⟩
    rcases hcase with ⟨hcall, hk, hqs⟩ | ⟨hcall, hk, hqs⟩ | ⟨hns, hnw, rfl⟩
    · -- a signal: the queue is as it was, or its head leaves
      have hb : blockedIn m ⟨s, e, s'⟩ = [] := by simp [blockedIn, hcall]
      refine ⟨?_, ?_, ?_⟩
      · simp [hcall, hk, hcount]; omega
      · rw [hb, List.append_nil, List.append_assoc, horder]
        congr 1
        rcases hqs with hqs | ⟨t, hqs⟩
        · rw [wokenIn_of_subset fun t ht => by simpa [hq', hqs, hq] using ht, hqs]
          rfl
        · have hone := hI.waitQueue_count t m
          rw [hq, hqs, List.count_cons_self] at hone
          have ht : t ∉ x'.waitQueue := fun h => by
            have := List.count_pos_iff.mpr h
            omega
          simp only [wokenIn, hq, hq', hqs, List.filter_cons, ht, not_false_eq_true, decide_true, ↓reduceIte]
          rw [List.filter_eq_nil_iff.mpr fun u hu => by simpa using hu]
          rfl
      · simp [hb, hcall, hwaits]
    · -- a wait: it passes, or its caller joins the queue
      have hrun := hI.running_not_waiting hcur m
      rw [hq] at hrun
      rcases hqs with hqs | hqs
      · have hb : blockedIn m ⟨s, e, s'⟩ = [] := by simp [blockedIn, hcall, hq', hqs, hrun]
        have hw : wokenIn m ⟨s, e, s'⟩ = [] :=
          wokenIn_of_subset fun t ht => by simpa [hq', hqs, hq] using ht
        refine ⟨?_, ?_, ?_⟩
        · simp [hcall, hk, hcount]; omega
        · simp [hb, hw, horder, hqs]
        · simp [hb, hcall, hq', hqs, hrun]; omega
      · have hb : blockedIn m ⟨s, e, s'⟩ = [e.caller] := by simp [blockedIn, hcall, hq', hqs]
        have hw : wokenIn m ⟨s, e, s'⟩ = [] :=
          wokenIn_of_subset fun t ht => by
            have ht' : t ∈ x.waitQueue := hq ▸ ht
            simp [hq', hqs, ht']
        refine ⟨?_, ?_, ?_⟩
        · simp [hcall, hk, hcount]; omega
        · simp [hb, hw, horder, hqs]
        · simp [hb, hcall, hq', hqs]; omega
    · have hb : blockedIn m ⟨s, e, s'⟩ = [] := by simp [blockedIn, hnw]
      have hw : wokenIn m ⟨s, e, s'⟩ = [] :=
        wokenIn_of_subset fun t ht => by simpa [hq', hq] using ht
      refine ⟨?_, ?_, ?_⟩
      · simp [hns, hnw, hcount]
      · simp [hb, hw, horder]
      · simp [hb, hnw, hwaits]

theorem semHist_step (hH : SemHist tr s) (hI : Inv tr s) (h : lib.step s e s') :
    SemHist (tr ++ [⟨s, e, s'⟩]) s' := by
  obtain ⟨hcur, hal, hex⟩ := h
  have he : Effect s e.caller e.call s' := exec_effect (hI.parent_ne _) hal hex
  have hmade := he.semsMade
  refine ⟨?_, ?_, fun m hm => hH.fresh_step hI hal ?_, fun m x hx => hH.live_step hI hcur he hx⟩
  · rw [initials_snoc, hmade, List.length_append, hH.len]
  · intro v hv
    rw [initials_snoc] at hv
    rcases List.mem_append.mp hv with hv | hv
    · exact hH.nonneg v hv
    · obtain ⟨c, call⟩ := e
      cases call <;> simp [Call.initial] at hv
      subst hv
      exact hal
  · rw [hmade] at hm
    exact le_trans (Nat.le_add_right _ _) hm

end Step

theorem semHist_run {tr : Trace} {s : State} (h : lib.Run myThreadInit tr s) : SemHist tr s :=
  Lts.Run.invariant semHist_init (fun _ _ _ _ hr hH hst => semHist_step hH (inv_run hr) hst) h

/-- A count below zero means that somebody waits. -/
theorem waitQueue_ne_nil {tr : Trace} {s : State} (h : lib.Run myThreadInit tr s) {m : Sid} {x : Semaphore}
    (hm : s.sems m = some x) (hk : x.count + 1 ≤ 0) : x.waitQueue ≠ [] := by
  intro hnil
  have hlen := ((inv_run h).sems m x hm).2
  rw [hnil] at hlen
  simp at hlen
  omega

/-- So a signal of an allocated semaphore finds the thread it wants to wake. -/
theorem signal_isSome {tr : Trace} {s : State} (h : lib.Run myThreadInit tr s) {m : Sid} {x : Semaphore}
    (hm : s.sems m = some x) : (mySemaphoreSignal s m).isSome = true := by
  simp only [mySemaphoreSignal, hm]
  split
  · rename_i hk
    obtain ⟨t, q, hq⟩ := List.exists_cons_of_ne_nil (waitQueue_ne_nil h hm hk)
    simp [hq, dequeue]
  · rfl

/-- **A semaphore counts right and wakes in order.** For an allocated
semaphore of any run, after `W` waits and `S` signals: the count, the length
of the wait queue, the number of granted waits, the order of the grants, that
a signal always finds the thread it wants to wake, and when it can be
destroyed. -/
theorem semaphore_fifo {tr : Trace} {s : State} (h : lib.Run myThreadInit tr s) {m : Sid} {x : Semaphore}
    (hm : s.sems m = some x) :
    ∃ v, (initials tr)[m]? = some v ∧ 0 ≤ v ∧
      x.count = v + signals tr m - waits tr m ∧
      (x.waitQueue.length : ℤ) = max 0 (waits tr m - v - signals tr m) ∧
      (granted tr m : ℤ) = min (waits tr m : ℤ) (v + signals tr m) ∧
      blockedOrder tr m = wokenOrder tr m ++ x.waitQueue ∧
      (x.count + 1 ≤ 0 → (dequeue x.waitQueue).1 ≠ none) ∧
      (mySemaphoreSignal s m).isSome = true ∧
      ((mySemaphoreDestroy s m).map Prod.fst = some 0 ↔ 0 ≤ x.count) := by
  obtain ⟨v, hv, hcount, horder, hwaits⟩ := (semHist_run h).live m x hm
  have hlen := ((inv_run h).sems m x hm).2
  have hgrant : granted tr m + x.waitQueue.length = waits tr m := by
    rw [← hwaits, horder, List.length_append, granted]
    omega
  refine ⟨v, hv, (semHist_run h).nonneg v (List.mem_of_getElem? hv), hcount, ?_, ?_, horder, ?_, ?_, ?_⟩
  · omega
  · omega
  · intro hk
    obtain ⟨t, q, hq⟩ := List.exists_cons_of_ne_nil (waitQueue_ne_nil h hm hk)
    simp [hq, dequeue]
  · exact signal_isSome h hm
  · simp only [mySemaphoreDestroy, hm, Option.map_some, Option.some.injEq]
    by_cases h1 : x.waitQueue = []
    · simp [h1] at hlen ⊢
      omega
    · have : 0 < x.waitQueue.length := List.length_pos_iff.mpr h1
      simp [h1]
      omega

/-- Main waits for a semaphore that starts at 0: it cannot be destroyed. -/
theorem semaphore_fifo_main :
    (mySemaphoreDestroy (getNextThread ((mySemaphoreInit myThreadInit 0).2.setSem 0 (some ⟨-1, [0]⟩)))
      0).map Prod.fst ≠ some 0 := by
  have h1 : lib.step myThreadInit ⟨0, .semInit 0⟩ (mySemaphoreInit myThreadInit 0).2 :=
    ⟨rfl, le_refl (0 : ℤ), rfl⟩
  have h2 : lib.step (mySemaphoreInit myThreadInit 0).2 ⟨0, .semWait 0⟩
      (getNextThread ((mySemaphoreInit myThreadInit 0).2.setSem 0 (some ⟨-1, [0]⟩))) :=
    ⟨rfl, rfl, rfl⟩
  obtain ⟨_, -, -, -, -, -, -, -, -, hd⟩ := semaphore_fifo ((Lts.Run.single h1).snoc h2) (m := 0) rfl
  rw [ne_eq, hd]
  decide

/-- The library is never stuck: whatever the running thread may call has an
outcome. -/
theorem exec_isSome {tr : Trace} {s : State} (h : lib.Run myThreadInit tr s) (c : Tid) {call : Call}
    (ha : Allowed s call) : (exec s c call).isSome = true := by
  cases call with
  | semSignal m =>
    obtain ⟨x, hx⟩ := Option.isSome_iff_exists.mp ha
    exact signal_isSome h hx
  | semWait m =>
    obtain ⟨x, hx⟩ := Option.isSome_iff_exists.mp ha
    simp only [exec, mySemaphoreWait, hx]
    split <;> rfl
  | semDestroy m =>
    obtain ⟨x, hx⟩ := Option.isSome_iff_exists.mp ha
    simp [exec, mySemaphoreDestroy, hx]
  | _ => rfl

end Threads
end Csc501

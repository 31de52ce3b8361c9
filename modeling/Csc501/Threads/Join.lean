/-
# Joins wake exactly on time, and joining alone never deadlocks

`MyThreadJoin` and `MyThreadJoinAll` share one blocked queue and one test at
the exit of a child: the parent has no child left, or waits for this one. It
is the right test for both, because while a thread is blocked its
`waiting_for` stays what its call made it (`Effect.waitingFor_of_blocked`),
a join's child is among the children until it exits, and a `MyThreadJoinAll`
leaves `waiting_for` `NULL`.

When `get_next_thread` finds nobody ready, a blocked thread has a live child,
and that child is blocked or waits for a semaphore; children are younger than
their parents, so going down ends at a semaphore (`blocked_descends`).

Key theorems: `Effect.leaves_blocked`, `Effect.leaves_join`, `joins_wake_on_time`,
`blocked_descends`, `deadlock_needs_semaphore`.
-/
import Csc501.Threads.Semaphore
import Mathlib.Logic.Relation

namespace Csc501
namespace Threads

open Lib

section Step

variable {tr : Trace} {s s' : State} {c : Tid} {call : Call}

theorem Inv.blocked_lt (hI : Inv tr s) {p : ℕ} (hp : p ∈ s.blockedQueue) : p < s.made := by
  have h1 := hI.placed p
  rw [count_places] at h1
  have h2 : 0 < s.blockedQueue.count p := List.count_pos_iff.mpr hp
  split at h1
  · rename_i h; exact h.1
  · omega

/-- While a thread stays blocked, nobody touches its `waiting_for`. -/
theorem Effect.waitingFor_of_blocked (h : Effect s c call s') (hI : Inv tr s)
    (hcur : s.currentThread = some c) {p : Tid} (hp : p ∈ s.blockedQueue) (hp' : p ∈ s'.blockedQueue) :
    (s'.threads p).waitingFor = (s.threads p).waitingFor := by
  have hpc : p ≠ c := fun h => hI.running_not_blocked hcur (h ▸ hp)
  have hpm : p ≠ s.made := (hI.blocked_lt hp).ne
  cases h with
  | create => simp [Function.update, hpc, hpm]
  | @joinBlock u _ =>
    by_cases h1 : p = u
    · subst h1; simp [State.modify, Function.update, hpc]
    · simp [State.modify, Function.update, hpc, h1]
  | @exitQuiet q _ _ => by_cases h1 : p = q <;> simp [State.modify, Function.update, h1]
  | @exitWake q _ _ _ =>
    have h1 : p ≠ q := (mem_removeNode.mp hp').2
    simp [State.modify, Function.update, h1]
  | _ => rfl

/-- **Who leaves the blocked queue**: the parent of the thread that exits, if
no child is left or it waits for this one. -/
theorem Effect.leaves_blocked (h : Effect s c call s') {p : Tid} (hp : p ∈ s.blockedQueue) :
    p ∉ s'.blockedQueue ↔ call = .exit ∧ (s.threads c).parent = some p ∧
      (removeNode (s.threads p).children c = [] ∨ (s.threads p).waitingFor = some c) := by
  cases h with
  | joinBlock _ => simp [hp]
  | joinAllBlock _ => simp [hp]
  | exitRoot h => simp [hp, h]
  | @exitQuiet q h hn =>
    have hb : p ∈ (getNextThread (s.modify q fun x =>
        { x with children := removeNode x.children c })).blockedQueue := hp
    simp only [hb, not_true_eq_false, true_and, false_iff, not_and]
    intro hq hw
    obtain rfl := Option.some.inj (h.symm.trans hq)
    exact hn ⟨hp, hw⟩
  | @exitWake q h hb hw =>
    simp only [getNextThread_blocked, mem_removeNode, hp, true_and, ne_eq, not_not]
    constructor
    · rintro rfl; exact ⟨h, hw⟩
    · rintro ⟨hq, -⟩; exact Option.some.inj (hq.symm.trans h)
  | _ => simp_all [State.setSem]

/-- A thread that is blocked in a join of `t` leaves the blocked queue as `t` exits. -/
theorem Effect.leaves_join (h : Effect s c call s') (hI : Inv tr s) {p t : Tid}
    (hw : (s.threads p).waitingFor = some t) : p ∉ s'.blockedQueue ↔ call = .exit ∧ c = t := by
  obtain ⟨hp, ht⟩ := hI.waits p t hw
  rw [h.leaves_blocked hp, hw]
  constructor
  · rintro ⟨hcall, hpar, hnil | hwt⟩
    · -- the last child that exits is `t`, which is a child still
      refine ⟨hcall, ?_⟩
      by_contra hne
      have hmem : t ∈ removeNode (s.threads p).children c := mem_removeNode.mpr ⟨ht, fun h => hne h.symm⟩
      rw [hnil] at hmem
      cases hmem
    · exact ⟨hcall, (Option.some.inj hwt).symm⟩
  · rintro ⟨hcall, rfl⟩
    exact ⟨hcall, hI.mem_children ht, Or.inr rfl⟩

end Step

/-- The effect of a step of a run. -/
theorem step_effect {tr : Trace} {s s' : State} {e : Event} (hI : Inv tr s) (h : lib.step s e s') :
    s.currentThread = some e.caller ∧ Effect s e.caller e.call s' :=
  ⟨h.1, exec_effect (hI.parent_ne _) h.2.1 h.2.2⟩

/-- `waiting_for` of a thread that stays blocked along a run. -/
theorem waitingFor_of_runIn {tr : Trace} {s s' : State} {p : Tid} {tr' : Trace} (hI : Inv tr s)
    (h : lib.RunIn (fun x => p ∈ x.blockedQueue) s tr' s') :
    Inv (tr ++ tr') s' ∧ (s'.threads p).waitingFor = (s.threads p).waitingFor := by
  refine Lts.RunIn.invariant (P := fun x => p ∈ x.blockedQueue)
    (I := fun tr' x => Inv (tr ++ tr') x ∧ (x.threads p).waitingFor = (s.threads p).waitingFor) ?_ ?_ h
  · exact ⟨by simpa using hI, rfl⟩
  · intro tr' x e x' hx hp hst hp'
    obtain ⟨hI', hw⟩ := hx
    obtain ⟨hcur, he⟩ := step_effect hI' hst
    rw [← List.append_assoc]
    exact ⟨inv_step hI' hst, (he.waitingFor_of_blocked hI' hcur hp hp').trans hw⟩

/-- A join that blocks leaves its child in `waiting_for`. -/
theorem Effect.join_block {tr : Trace} {s s' : State} {p t : Tid} (h : Effect s p (.join t) s') (hI : Inv tr s)
    (hcur : s.currentThread = some p) (hb : p ∈ s'.blockedQueue) : (s'.threads p).waitingFor = some t := by
  cases h with
  | joinStranger _ => exact absurd hb (hI.running_not_blocked hcur)
  | joinBlock ht => simp [State.modify]

/-- A `MyThreadJoinAll` that blocks leaves `NULL` there. -/
theorem Effect.joinAll_block {tr : Trace} {s s' : State} {p : Tid} (h : Effect s p .joinAll s') (hI : Inv tr s)
    (hcur : s.currentThread = some p) : (s'.threads p).waitingFor = none := by
  have hnone : (s.threads p).waitingFor = none := by
    cases hw : (s.threads p).waitingFor with
    | none => rfl
    | some t => exact absurd (hI.waits p t hw).1 (hI.running_not_blocked hcur)
  cases h with
  | joinAllPass _ => exact hnone
  | joinAllBlock _ => exact hnone

/-! ### Joins -/

/-- **Joins wake exactly on time.** In every state of a run, `children` lists
in creation order the live threads its owner created, and `waiting_for` is
set only while its owner is blocked for that live child. A thread that blocks
in a join of `t` leaves the blocked queue in exactly the step in which `t`
exits, and one that blocks in `MyThreadJoinAll` in exactly the step in which
the last live thread it created exits. -/
theorem joins_wake_on_time {tr : Trace} {s : State} (h : lib.Run myThreadInit tr s) :
    (∀ p, (s.threads p).children.Pairwise (· < ·) ∧
      ∀ t, t ∈ (s.threads p).children ↔ creator tr t = some p ∧ ¬ exited tr t) ∧
    (∀ p t, (s.threads p).waitingFor = some t →
      p ∈ s.blockedQueue ∧ creator tr t = some p ∧ ¬ exited tr t) ∧
    (∀ p t s₁ tr' s₂ e s₃, lib.step s ⟨p, .join t⟩ s₁ →
      lib.RunIn (fun x => p ∈ x.blockedQueue) s₁ tr' s₂ → lib.step s₂ e s₃ →
      (s₂.threads p).waitingFor = some t ∧ (p ∉ s₃.blockedQueue ↔ e = ⟨t, .exit⟩)) ∧
    (∀ p s₁ tr' s₂ e s₃, lib.step s ⟨p, .joinAll⟩ s₁ →
      lib.RunIn (fun x => p ∈ x.blockedQueue) s₁ tr' s₂ → lib.step s₂ e s₃ →
      (s₂.threads p).waitingFor = none ∧
      (p ∉ s₃.blockedQueue ↔ e.call = .exit ∧
        creator (tr ++ [⟨s, ⟨p, .joinAll⟩, s₁⟩] ++ tr') e.caller = some p ∧
        ∀ t, creator (tr ++ [⟨s, ⟨p, .joinAll⟩, s₁⟩] ++ tr') t = some p → t ≠ e.caller →
          exited (tr ++ [⟨s, ⟨p, .joinAll⟩, s₁⟩] ++ tr') t)) := by
  have hI := inv_run h
  refine ⟨fun p => ⟨?_, fun t => ?_⟩, fun p t hw => ?_, ?_, ?_⟩
  · rw [hI.children]
    exact (List.pairwise_lt_range).filter _
  · rw [hI.children, mem_liveChildren]
  · obtain ⟨hb, ht⟩ := hI.waits p t hw
    rw [hI.children, mem_liveChildren] at ht
    exact ⟨hb, ht⟩
  · intro p t s₁ tr' s₂ e s₃ hj hrun hst
    obtain ⟨hcur, hej⟩ := step_effect hI hj
    have hw₁ : (s₁.threads p).waitingFor = some t := hej.join_block hI hcur hrun.first
    obtain ⟨hI₂, hw₂⟩ := waitingFor_of_runIn (inv_step hI hj) hrun
    rw [hw₁] at hw₂
    refine ⟨hw₂, ?_⟩
    obtain ⟨-, he⟩ := step_effect hI₂ hst
    rw [he.leaves_join hI₂ hw₂]
    constructor
    · rintro ⟨hcall, hcaller⟩
      rw [← hcall, ← hcaller]
    · rintro rfl
      exact ⟨rfl, rfl⟩
  · intro p s₁ tr' s₂ e s₃ hj hrun hst
    obtain ⟨hcur, hej⟩ := step_effect hI hj
    have hw₁ : (s₁.threads p).waitingFor = none := hej.joinAll_block hI hcur
    obtain ⟨hI₂, hw₂⟩ := waitingFor_of_runIn (inv_step hI hj) hrun
    rw [hw₁] at hw₂
    refine ⟨hw₂, ?_⟩
    obtain ⟨-, he⟩ := step_effect hI₂ hst
    rw [he.leaves_blocked hrun.last, hw₂, hI₂.parent, hI₂.children]
    refine and_congr_right fun _ => and_congr_right fun _ => ?_
    simp only [reduceCtorEq, or_false, List.eq_nil_iff_forall_not_mem, mem_removeNode, mem_liveChildren,
      not_and, not_not]
    constructor
    · intro h t hc hne
      by_contra hx
      exact hne (h t ⟨hc, hx⟩)
    · intro h t hlive
      by_contra hne
      exact hlive.2 (h t hlive.1 hne)

/-- Main creates a thread and joins it: the exit of the thread wakes main. -/
theorem joins_wake_on_time_child :
    0 ∈ (myThreadJoin (myThreadCreate myThreadInit 0).2 0 1).2.blockedQueue ∧
    0 ∉ (myThreadExit (myThreadJoin (myThreadCreate myThreadInit 0).2 0 1).2 1).blockedQueue := by
  have hb : 0 ∈ (myThreadJoin (myThreadCreate myThreadInit 0).2 0 1).2.blockedQueue := by decide
  have h := joins_wake_on_time (Lts.Run.single (M := lib) (s := myThreadInit) (a := ⟨0, .create⟩)
    ⟨rfl, trivial, rfl⟩)
  exact ⟨hb, (h.2.2.1 0 1 _ [] _ ⟨1, .exit⟩ _ ⟨rfl, trivial, rfl⟩ (.nil hb) ⟨rfl, trivial, rfl⟩).2.mpr rfl⟩

/-! ### Deadlock -/

/-- Nobody runs only because nobody is ready. -/
theorem Effect.ready_of_halted {s s' : State} {c : Tid} {call : Call} (h : Effect s c call s')
    (hcur : s.currentThread = some c) (hend : s'.currentThread = none) : s'.readyQueue = [] := by
  have hnext : ∀ x : State, (getNextThread x).currentThread = none → (getNextThread x).readyQueue = [] := by
    intro x hx
    unfold getNextThread at hx ⊢
    cases hr : x.readyQueue with
    | nil => rfl
    | cons t q => simp [hr, dequeue] at hx
  cases h with
  | yield => exact hnext _ hend
  | joinBlock _ => exact hnext _ hend
  | joinAllBlock _ => exact hnext _ hend
  | exitRoot _ => exact hnext _ hend
  | exitQuiet _ _ => exact hnext _ hend
  | exitWake _ _ _ => exact hnext _ hend
  | waitBlock _ _ => exact hnext _ hend
  | _ => exact absurd (hcur.symm.trans hend) (by simp)

theorem ready_of_halted {tr : Trace} {s : State} (h : lib.Run myThreadInit tr s)
    (hend : s.currentThread = none) : s.readyQueue = [] := by
  cases h with
  | nil => cases hend
  | snoc hr hst =>
    obtain ⟨hcur, he⟩ := step_effect (inv_run hr) hst
    exact he.ready_of_halted hcur hend

/-- Where a live thread is once nobody runs. -/
theorem halted_cases {tr : Trace} {s : State} (h : lib.Run myThreadInit tr s)
    (hend : s.currentThread = none) {t : Tid} (hc : created tr t) (hx : ¬ exited tr t) :
    t ∈ s.blockedQueue ∨ ∃ m, t ∈ s.waitQueue m := by
  have hI := inv_run h
  have h1 := hI.placed t
  rw [count_places, hend, ready_of_halted h hend, if_pos ⟨hI.lt_made hc, hx⟩] at h1
  by_cases hb : t ∈ s.blockedQueue
  · exact Or.inl hb
  · right
    rw [List.count_eq_zero.mpr hb] at h1
    have hw : waiting s t ≠ 0 := by
      simp at h1
      omega
    obtain ⟨m, -, hm⟩ := Finset.exists_ne_zero_of_sum_ne_zero hw
    exact ⟨m, List.count_pos_iff.mp (Nat.pos_of_ne_zero hm)⟩

/-- `t` is a child, a grandchild, ... of `p`. -/
def Descendant (tr : Trace) : Tid → Tid → Prop := Relation.TransGen fun p t => creator tr t = some p

/-- Going down from a blocked thread ends at a semaphore: its live child is
younger, and if it is blocked too the same holds of it. The induction is on
how many threads were created after it. -/
theorem blocked_descends {tr : Trace} {s : State} (h : lib.Run myThreadInit tr s)
    (hend : s.currentThread = none) : ∀ (n p : ℕ), s.made - p ≤ n → p ∈ s.blockedQueue →
    ∃ d m, Descendant tr p d ∧ d ∈ s.waitQueue m := by
  have hI := inv_run h
  intro n
  induction n with
  | zero =>
    intro p hn hp
    have := hI.blocked_lt hp
    omega
  | succ n ih =>
    intro p hn hp
    obtain ⟨t, ht⟩ := List.exists_mem_of_ne_nil _ (hI.blocked p hp)
    rw [hI.children, mem_liveChildren] at ht
    have hlt := hI.older p t ht.1
    rcases halted_cases h hend (creator_lt ht.1) ht.2 with hb | ⟨m, hm⟩
    · have := hI.blocked_lt hp
      obtain ⟨d, m, hd, hm⟩ := ih t (by omega) hb
      exact ⟨d, m, Relation.TransGen.head ht.1 hd, hm⟩
    · exact ⟨t, m, Relation.TransGen.single ht.1, hm⟩

/-- No wait of the run blocked its caller. -/
def NeverBlocks (tr : Trace) : Prop :=
  ∀ x ∈ tr, ∀ m, x.label.call = .semWait m → x.label.caller ∉ x.dst.waitQueue m

theorem waitQueue_of_neverBlocks {tr : Trace} {s : State} (h : lib.Run myThreadInit tr s)
    (hn : NeverBlocks tr) (m : Sid) : s.waitQueue m = [] := by
  induction h with
  | nil => rfl
  | @snoc t u tr' a hr hst ih =>
    have hold := ih fun x hx => hn x (List.mem_append_left _ hx)
    obtain ⟨-, he⟩ := step_effect (inv_run hr) hst
    apply List.eq_nil_iff_forall_not_mem.mpr
    intro v hv
    rcases he.mem_waitQueue hv with hv' | ⟨rfl, hcall⟩
    · rw [hold] at hv'
      cases hv'
    · exact hn ⟨t, a, u⟩ (by simp) m hcall hv

/-- **Joining alone never deadlocks.** When `get_next_thread` finds nobody
ready, every live thread waits for a semaphore, or is blocked and has a
descendant that does; so if no wait ever blocked, every thread has exited. -/
theorem deadlock_needs_semaphore {tr : Trace} {s : State} (h : lib.Run myThreadInit tr s)
    (hend : s.currentThread = none) :
    (∀ t, created tr t → ¬ exited tr t →
      (∃ m, t ∈ s.waitQueue m) ∨
      (t ∈ s.blockedQueue ∧ ∃ d m, Descendant tr t d ∧ d ∈ s.waitQueue m)) ∧
    (NeverBlocks tr → ∀ t, created tr t → exited tr t) := by
  have hmain : ∀ t, created tr t → ¬ exited tr t →
      (∃ m, t ∈ s.waitQueue m) ∨
      (t ∈ s.blockedQueue ∧ ∃ d m, Descendant tr t d ∧ d ∈ s.waitQueue m) := by
    intro t hc hx
    rcases halted_cases h hend hc hx with hb | hw
    · exact Or.inr ⟨hb, blocked_descends h hend _ t le_rfl hb⟩
    · exact Or.inl hw
  refine ⟨hmain, fun hn t hc => ?_⟩
  by_contra hx
  rcases hmain t hc hx with ⟨m, hm⟩ | ⟨-, d, m, -, hm⟩
  · rw [waitQueue_of_neverBlocks h hn] at hm
    cases hm
  · rw [waitQueue_of_neverBlocks h hn] at hm
    cases hm

/-- Main joins a thread that waits for a semaphore, which starts at 0: nobody runs, main is
blocked, and the thread is in the wait queue. -/
theorem deadlock_needs_semaphore_joined : ∃ tr s, lib.Run myThreadInit tr s ∧ s.currentThread = none ∧
    0 ∈ s.blockedQueue ∧ ∃ d m, Descendant tr 0 d ∧ d ∈ s.waitQueue m := by
  let s₁ := (myThreadCreate myThreadInit 0).2
  let s₂ := (myThreadJoin s₁ 0 1).2
  let s₃ := (mySemaphoreInit s₂ 0).2
  let s₄ := getNextThread (s₃.setSem 0 (some ⟨-1, [1]⟩))
  have h₁ : lib.step myThreadInit ⟨0, .create⟩ s₁ := ⟨rfl, trivial, rfl⟩
  have h₂ : lib.step s₁ ⟨0, .join 1⟩ s₂ := ⟨rfl, trivial, rfl⟩
  have h₃ : lib.step s₂ ⟨1, .semInit 0⟩ s₃ := ⟨rfl, le_refl (0 : ℤ), rfl⟩
  have h₄ : lib.step s₃ ⟨1, .semWait 0⟩ s₄ := ⟨rfl, rfl, rfl⟩
  have hrun := (((Lts.Run.single h₁).snoc h₂).snoc h₃).snoc h₄
  have h := deadlock_needs_semaphore hrun rfl
  refine ⟨_, s₄, hrun, rfl, ?_⟩
  rcases h.1 0 (Nat.zero_le _) (by simp [exited, labels]) with ⟨m, hm⟩ | hb
  · -- only the other thread waits
    have hqueue : s₄.waitQueue m = if m = 0 then [1] else [] := by
      by_cases hm0 : m = 0
      · subst hm0
        rfl
      · rw [if_neg hm0]
        show ((Function.update (Function.update (fun _ => none) 0 _) 0 _ m).map Semaphore.waitQueue).getD [] = []
        simp [hm0]
    rw [hqueue] at hm
    split_ifs at hm <;> simp at hm
  · exact hb

end Threads
end Csc501

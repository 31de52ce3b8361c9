/-
# What a join returns

`readme.md`: a join of a child returns 0 after any necessary blocking, it does not block
if the child has terminated already, and it fails only for a thread that is not a child
of the invoking one. `MyThreadJoin` asks `children` for that, and `MyThreadExit` takes
the exiting thread out of it: a child that has exited is refused like a stranger. So the
result is the right one exactly if the thread was made by someone else, or lives
(`join_result_iff`).

Key definitions: `ReturnsAfterExit`, `JoinsRight`.
Key theorems: `inv_programs`, `blocked_until_exit`, `join_result_iff`.
-/
import Csc501.Threads.Dispatch
import Csc501.Threads.Join

namespace Csc501
namespace Threads

open Lib

/-! ### The invariant under any program -/

/-- The invariant reads of a run who was made by whom and who has exited. -/
theorem Inv.of_same {tr tr' : Trace} {s : State} (hI : Inv tr s) (hc : creators tr' = creators tr)
    (hx : ∀ t, exited tr' t ↔ exited tr t) : Inv tr' s := by
  have hcr : creator tr' = creator tr := by
    funext t
    cases t with
    | zero => rfl
    | succ n => rw [creator, creator, hc]
  have hlive : ∀ p, liveChildren tr' p = liveChildren tr p := by
    intro p
    simp only [liveChildren, hc, hcr, hx]
  constructor
  · rw [hc]
    exact hI.made
  · exact fun t ht => hI.exitedMade t ((hx t).mp ht)
  · rw [hcr]
    exact hI.parent
  · rw [hcr]
    exact hI.older
  · intro p
    rw [hlive]
    exact hI.children p
  · intro t
    simp only [hx]
    exact hI.placed t
  · exact hI.waits
  · exact hI.blocked
  · exact hI.sems

theorem inv_programs_step {tr : Trace} {s s' : State} {e : Event} (hI : Inv tr s) (h : programs.step s e s') :
    Inv (tr ++ [⟨s, e, s'⟩]) s' := by
  rcases programs_step h with h | ⟨rfl, v, hv⟩
  · exact inv_step hI h
  · apply hI.of_same
    · simp [creators_snoc, hv]
    · intro t
      have hne : e ≠ ⟨t, .exit⟩ := by
        rintro rfl
        cases hv
      simp [hne]

theorem inv_programs {tr : Trace} {s : State} (h : programs.Run myThreadInit tr s) : Inv tr s :=
  Lts.Run.invariant inv_init (fun _ _ _ _ _ hI hst => inv_programs_step hI hst) h

/-! ### Joins -/

/-- From `s` on, the thread `c` is blocked until `t` exits, and runs or is ready then. -/
def ReturnsAfterExit (s : State) (c t : Tid) : Prop :=
  ∀ tr s₁, programs.Run s tr s₁ → ¬ exited tr t →
    c ∈ s₁.blockedQueue ∧ s₁.currentThread ≠ some c ∧
      ∀ s₂, programs.step s₁ ⟨t, .exit⟩ s₂ → c ∈ s₂.currentThread.toList ++ s₂.readyQueue

/-- What a join of `t` by the running thread `c` is to do. -/
def JoinsRight (tr : Trace) (s : State) (c t : Tid) : Prop :=
  if creator tr t = some c then
    (myThreadJoin s c t).1 = 0 ∧
      if exited tr t then (myThreadJoin s c t).2.currentThread = some c
      else ReturnsAfterExit (myThreadJoin s c t).2 c t
  else myThreadJoin s c t = (-1, s)

section Step

variable {tr : Trace} {s s' : State} {c t : Tid} {e : Event}

/-- A step by which `t` does not exit leaves the one that waits for it where it is. -/
theorem waits_step (hI : Inv tr s) (hw : (s.threads c).waitingFor = some t) (h : programs.step s e s')
    (hne : e ≠ ⟨t, .exit⟩) : (s'.threads c).waitingFor = some t := by
  rcases programs_step h with h | ⟨rfl, -⟩
  · obtain ⟨hcur, he⟩ := step_effect hI h
    have hstay : c ∈ s'.blockedQueue := by
      by_contra hb
      obtain ⟨hcall, hcaller⟩ := (he.leaves_join hI hw).mp hb
      apply hne
      rw [← hcall, ← hcaller]
    exact (he.waitingFor_of_blocked hI hcur (hI.waits c t hw).1 hstay).trans hw
  · exact hw

/-- The exit of `t` makes the one that waits for it ready. -/
theorem exit_readies (hI : Inv tr s) (hw : (s.threads c).waitingFor = some t) (h : programs.step s ⟨t, .exit⟩ s') :
    c ∈ s'.currentThread.toList ++ s'.readyQueue := by
  obtain ⟨hb, ht⟩ := hI.waits c t hw
  have hwoken : wokenByExit s t = some c := by
    rw [wokenByExit, hI.mem_children ht, Option.filter_some, if_pos]
    simp [hb, hw]
  obtain ⟨s₁, hready, rfl⟩ := exec_ready h.2
  rw [getNextThread_ready, hready]
  simp [readied, hwoken]

/-- **Who waits for `t` is blocked until `t` exits.** -/
theorem blocked_until_exit (hI : Inv tr s) (hw : (s.threads c).waitingFor = some t) : ReturnsAfterExit s c t := by
  intro tr' s₁ hrun
  have hkeep : Inv (tr ++ tr') s₁ ∧ (¬ exited tr' t → (s₁.threads c).waitingFor = some t) := by
    induction hrun with
    | nil => exact ⟨by simpa using hI, fun _ => hw⟩
    | snoc _ hst ih =>
      obtain ⟨hI₁, hw₁⟩ := ih
      rw [← List.append_assoc]
      refine ⟨inv_programs_step hI₁ hst, fun hx => ?_⟩
      rw [exited_snoc, not_or] at hx
      exact waits_step hI₁ (hw₁ hx.1) hst hx.2
  intro hx
  have hw₁ := hkeep.2 hx
  have hb := (hkeep.1.waits c t hw₁).1
  refine ⟨hb, fun hcur => hkeep.1.running_not_blocked hcur hb, fun s₂ hst => exit_readies hkeep.1 hw₁ hst⟩

end Step

/-- **A join is right exactly if it is not of an own child that has exited.** -/
theorem join_result_iff {tr : Trace} {s : State} {c p t : Tid} (h : programs.Run myThreadInit tr s)
    (hcur : s.currentThread = some c) (hp : creator tr t = some p) :
    JoinsRight tr s c t ↔ ¬ (p = c ∧ exited tr t) := by
  have hI := inv_programs h
  have hchild : contains (s.threads c).children t = true ↔ p = c ∧ ¬ exited tr t := by
    rw [contains_iff, hI.children, mem_liveChildren, hp, Option.some.injEq]
  have hown : creator tr t = some c ↔ p = c := by rw [hp, Option.some.injEq]
  unfold JoinsRight
  by_cases hpc : p = c
  · rw [if_pos (hown.mpr hpc)]
    by_cases hx : exited tr t
    · have hno : ¬ contains (s.threads c).children t = true := fun hc => (hchild.mp hc).2 hx
      simp [myThreadJoin, hno, hpc, hx]
    · have hyes : contains (s.threads c).children t = true := hchild.mpr ⟨hpc, hx⟩
      have hres : (myThreadJoin s c t).1 = 0 := by simp [myThreadJoin, hyes]
      have hst : programs.step s ⟨c, .join t⟩ (myThreadJoin s c t).2 := ⟨hcur, rfl⟩
      have hw : ((myThreadJoin s c t).2.threads c).waitingFor = some t := by
        simp [myThreadJoin, hyes, State.modify]
      rw [if_neg hx]
      simp only [hx, and_false, not_false_eq_true, iff_true]
      exact ⟨hres, blocked_until_exit (inv_programs_step hI hst) hw⟩
  · have hno : ¬ contains (s.threads c).children t = true := fun hc => hpc (hchild.mp hc).1
    rw [if_neg fun hc => hpc (hown.mp hc)]
    simp [myThreadJoin, hno, hpc]

/-- Main joins the thread it has just made. -/
theorem join_result_iff_child : JoinsRight [⟨myThreadInit, ⟨0, .create⟩, (myThreadCreate myThreadInit 0).2⟩]
    (myThreadCreate myThreadInit 0).2 0 1 := by
  have hrun : programs.Run myThreadInit [⟨myThreadInit, ⟨0, .create⟩, (myThreadCreate myThreadInit 0).2⟩]
      (myThreadCreate myThreadInit 0).2 := Lts.Run.single ⟨rfl, rfl⟩
  exact (join_result_iff (p := 0) hrun rfl rfl).mpr (by decide)

/-- Main makes a thread and yields, and the thread exits. -/
def exitedChild : Trace :=
  let s₁ := (myThreadCreate myThreadInit 0).2
  let s₂ := myThreadYield s₁ 0
  [⟨myThreadInit, ⟨0, .create⟩, s₁⟩, ⟨s₁, ⟨0, .yield⟩, s₂⟩, ⟨s₂, ⟨1, .exit⟩, myThreadExit s₂ 1⟩]

/-- A join of a child that has exited is refused. -/
theorem join_exited_child : ∃ s, programs.Run myThreadInit exitedChild s ∧ s.currentThread = some 0 ∧
    creator exitedChild 1 = some 0 ∧ exited exitedChild 1 ∧ (myThreadJoin s 0 1).1 = -1 ∧
    ¬ JoinsRight exitedChild s 0 1 := by
  have h0 : programs.Run myThreadInit [] myThreadInit := Lts.Run.nil _
  have h1 := h0.snoc (a := ⟨0, .create⟩) (u := (myThreadCreate myThreadInit 0).2) ⟨rfl, rfl⟩
  have h2 := h1.snoc (a := ⟨0, .yield⟩) (u := myThreadYield (myThreadCreate myThreadInit 0).2 0) ⟨rfl, rfl⟩
  have h3 := h2.snoc (a := ⟨1, .exit⟩) (u := myThreadExit (myThreadYield (myThreadCreate myThreadInit 0).2 0) 1)
    ⟨rfl, rfl⟩
  have hres : (myThreadJoin (myThreadExit (myThreadYield (myThreadCreate myThreadInit 0).2 0) 1) 0 1).1 = -1 := by
    decide
  have hown : creator exitedChild 1 = some 0 := rfl
  refine ⟨_, h3, rfl, hown, by decide, hres, ?_⟩
  rw [JoinsRight, if_pos hown, hres]
  exact fun h => absurd h.1 (by decide)

end Threads
end Csc501

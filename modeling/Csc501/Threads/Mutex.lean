/-
# Semaphores as locks

A thread holds a unit of a semaphore from the grant of its wait, at the call
or by the signal that wakes it, to its own signal. The library knows nothing
of this: anybody may signal. In the runs in which a thread signals only while
it holds a unit, the units held and the units free make up the initial value,
so never more threads than that are between their wait and their signal, and
nobody waits while a unit is free. With one unit this is mutual exclusion.

Key definitions: `takers`, `givers`, `Holds`, `Disciplined`.
Key theorems: `givers_le_takers`, `sum_held`, `semaphore_excludes`.
-/
import Csc501.Threads.Semaphore
import Mathlib.Algebra.BigOperators.Ring.Finset
import Mathlib.Order.Interval.Finset.Nat

namespace Csc501
namespace Threads

open Lib

/-- The thread whose wait a step grants at once. -/
def passerIn (m : Sid) (x : Trans State Event) : Option Tid :=
  if x.label.call = .semWait m ∧ x.label.caller ∉ x.dst.waitQueue m then some x.label.caller else none

/-- The threads whose waits were granted, each as often as it was. -/
def takers (tr : Trace) (m : Sid) : List Tid := tr.filterMap (passerIn m) ++ wokenOrder tr m

/-- The threads that signalled. -/
def givers (tr : Trace) (m : Sid) : List Tid :=
  (labels tr).filterMap fun e => if e.call = .semSignal m then some e.caller else none

/-- The thread has taken a unit of the semaphore that it has not given back. -/
def Holds (tr : Trace) (m : Sid) (t : Tid) : Prop := (givers tr m).count t < (takers tr m).count t

instance (tr : Trace) (m : Sid) (t : Tid) : Decidable (Holds tr m t) := inferInstanceAs (Decidable (_ < _))

/-- Nobody signals without holding a unit. -/
def Disciplined (tr : Trace) (m : Sid) : Prop :=
  ∀ pre x post, tr = pre ++ x :: post → x.label.call = .semSignal m → Holds pre m x.label.caller

section Snoc

variable (tr : Trace) (x : Trans State Event) (m : Sid)

theorem count_takers_snoc (t : Tid) : (takers (tr ++ [x]) m).count t =
    (takers tr m).count t + (passerIn m x).toList.count t + (wokenIn m x).count t := by
  unfold takers
  rw [wokenOrder_snoc, List.filterMap_append]
  simp only [List.count_append]
  cases hp : passerIn m x <;> simp [hp] <;> omega

theorem givers_snoc : givers (tr ++ [x]) m =
    givers tr m ++ if x.label.call = .semSignal m then [x.label.caller] else [] := by
  unfold givers
  rw [labels_append, List.filterMap_append, labels_singleton]
  split_ifs with h <;> simp [h]

theorem length_takers : (takers tr m).length = granted tr m := by
  have hpassed : (tr.filterMap (passerIn m)).length = passed tr m := by
    rw [passed, List.countP_eq_length_filter]
    induction tr with
    | nil => rfl
    | cons x tr ih =>
      by_cases hx : x.label.call = .semWait m ∧ x.label.caller ∉ x.dst.waitQueue m
      · rw [List.filterMap_cons_some (b := x.label.caller) (by rw [passerIn, if_pos hx]), List.filter_cons_of_pos
          (by simpa using hx), List.length_cons, List.length_cons, ih]
      · rw [List.filterMap_cons_none (by rw [passerIn, if_neg hx]), List.filter_cons_of_neg (by simpa using hx), ih]
  rw [takers, List.length_append, hpassed, granted]

theorem length_givers : (givers tr m).length = signals tr m := by
  rw [givers, signals]
  induction labels tr with
  | nil => rfl
  | cons e es ih => by_cases he : e.call = .semSignal m <;> simp [he, ih]

end Snoc

section Runs

variable {tr : Trace} {s : State} {m : Sid}

theorem Inv.waiting_made (hI : Inv tr s) {t : ℕ} (ht : t ∈ s.waitQueue m) : t < s.made := by
  cases hm : s.sems m with
  | none =>
    rw [waitQueue_of_none hm] at ht
    cases ht
  | some x =>
    have h1 := hI.placed t
    have h2 : (s.waitQueue m).count t ≤ waiting s t :=
      Finset.single_le_sum (f := fun m => (s.waitQueue m).count t) (fun _ _ => Nat.zero_le _)
        (Finset.mem_range.mpr (hI.sems m x hm).1)
    have h3 : 0 < (s.waitQueue m).count t := List.count_pos_iff.mpr ht
    rw [count_places] at h1
    by_contra hge
    rw [if_neg fun hlive => hge hlive.1] at h1
    omega

/-- Only threads that were made take and give. -/
theorem users_made (h : lib.Run myThreadInit tr s) : ∀ t, t ∈ takers tr m ∨ t ∈ givers tr m → t < s.made := by
  induction h with
  | nil => simp [takers, givers, wokenOrder]
  | @snoc u v tr e hr hst ih =>
    have hI := inv_run hr
    have hle : u.made ≤ v.made := by
      rw [(exec_effect (hI.parent_ne _) hst.2.1 hst.2.2).made]
      omega
    have hcaller : e.caller < v.made := lt_of_lt_of_le (hI.running hst.1).1 hle
    intro t ht
    rcases ht with ht | ht
    · have hpos : 0 < (takers (tr ++ [⟨u, e, v⟩]) m).count t := List.count_pos_iff.mpr ht
      rw [count_takers_snoc] at hpos
      by_cases hold : t ∈ takers tr m
      · exact lt_of_lt_of_le (ih t (Or.inl hold)) hle
      · by_cases hp : t ∈ (passerIn m ⟨u, e, v⟩).toList
        · unfold passerIn at hp
          split_ifs at hp
          · obtain rfl : t = e.caller := by simpa using hp
            exact hcaller
          · exact absurd hp (by simp)
        · have hw : t ∈ wokenIn m ⟨u, e, v⟩ := by
            rw [List.count_eq_zero.mpr hold, List.count_eq_zero.mpr hp] at hpos
            exact List.count_pos_iff.mp (by omega)
          exact lt_of_lt_of_le (hI.waiting_made (List.mem_filter.mp hw).1) hle
    · rw [givers_snoc] at ht
      rcases List.mem_append.mp ht with ht | ht
      · exact lt_of_lt_of_le (ih t (Or.inr ht)) hle
      · split_ifs at ht
        · obtain rfl := List.mem_singleton.mp ht
          exact hcaller
        · cases ht

/-- Who signals in turn has given back no more than it took. -/
theorem givers_le_takers (h : lib.Run myThreadInit tr s) : Disciplined tr m →
    ∀ t, (givers tr m).count t ≤ (takers tr m).count t := by
  induction h with
  | nil => exact fun _ t => le_rfl
  | @snoc u v tr e hr hst ih =>
    intro hd t
    have hbefore := ih (fun pre x post heq => hd pre x (post ++ [⟨u, e, v⟩]) (by simp [heq])) t
    have hlast := hd tr ⟨u, e, v⟩ [] rfl
    rw [count_takers_snoc, givers_snoc, List.count_append]
    by_cases he : e.call = .semSignal m
    · rw [if_pos he]
      by_cases hc : e.caller = t
      · have := hlast he
        rw [Holds, hc] at this
        simp only [hc, List.count_singleton_self]
        omega
      · simp only [List.count_singleton, beq_iff_eq, hc, if_false]
        omega
    · rw [if_neg he, List.count_nil]
      omega

/-- The units that are held, over all threads. -/
def unitsHeld (tr : Trace) (s : State) (m : Sid) : ℕ :=
  ∑ t ∈ Finset.range s.made, ((takers tr m).count t - (givers tr m).count t)

/-- The units held and the units free make up the initial value. -/
theorem sum_held (h : lib.Run myThreadInit tr s) (hd : Disciplined tr m) {x : Semaphore} (hm : s.sems m = some x)
    {v : ℤ} (hv : (initials tr)[m]? = some v) : (unitsHeld tr s m : ℤ) + max 0 x.count = v := by
  have hall : ∀ l : List Tid, (∀ t ∈ l, t < s.made) → ∑ t ∈ Finset.range s.made, l.count t = l.length := by
    intro l hl
    have := Multiset.sum_count_eq_card (s := Finset.range s.made) (m := (l : Multiset Tid))
      fun t ht => Finset.mem_range.mpr (hl t ht)
    simpa using this
  have htaken := hall (takers tr m) fun t ht => users_made h t (Or.inl ht)
  have hgiven := hall (givers tr m) fun t ht => users_made h t (Or.inr ht)
  have hheld : unitsHeld tr s m + signals tr m = granted tr m := by
    rw [← length_takers, ← length_givers, ← htaken, ← hgiven, unitsHeld, ← Finset.sum_add_distrib]
    apply Finset.sum_congr rfl
    intro t _
    have := givers_le_takers h hd t
    omega
  obtain ⟨v', hv', hcount, horder, hwaits⟩ := (semHist_run h).live m x hm
  obtain rfl := Option.some.inj (hv.symm.trans hv')
  have hlen := ((inv_run h).sems m x hm).2
  have hgrant : granted tr m + x.waitQueue.length = waits tr m := by
    rw [← hwaits, horder, List.length_append, granted]
    omega
  omega

theorem card_holders_le (tr : Trace) (s : State) (m : Sid) :
    ((Finset.range s.made).filter (Holds tr m)).card ≤ unitsHeld tr s m := by
  rw [Finset.card_filter]
  apply Finset.sum_le_sum
  intro t _
  split_ifs with ht
  · unfold Holds at ht
    omega
  · exact Nat.zero_le _

/-- **Semaphores exclude.** In every run in which nobody signals a semaphore without
holding a unit of it: the units held and the units free are its initial value, so at most
that many threads are between their wait and their signal; as long as somebody waits all
units are held; and with one unit no two threads hold it. -/
theorem semaphore_excludes (h : lib.Run myThreadInit tr s) (hd : Disciplined tr m) {x : Semaphore}
    (hm : s.sems m = some x) : ∃ v : ℕ, (initials tr)[m]? = some (v : ℤ) ∧
      (unitsHeld tr s m : ℤ) = v - max 0 x.count ∧
      ((Finset.range s.made).filter (Holds tr m)).card ≤ v ∧
      (x.waitQueue ≠ [] → unitsHeld tr s m = v) ∧
      (v = 1 → ∀ t u, Holds tr m t → Holds tr m u → t = u) := by
  obtain ⟨z, hz, -⟩ := (semHist_run h).live m x hm
  have hnonneg := (semHist_run h).nonneg z (List.mem_of_getElem? hz)
  obtain ⟨v, rfl⟩ := Int.eq_ofNat_of_zero_le hnonneg
  have hsum := sum_held h hd hm hz
  have hcard := card_holders_le tr s m
  have hlen := ((inv_run h).sems m x hm).2
  refine ⟨v, hz, by omega, by omega, fun hne => ?_, fun hone t u ht hu => ?_⟩
  · have := List.length_pos_iff.mpr hne
    omega
  · have hmem : ∀ t, Holds tr m t → t ∈ (Finset.range s.made).filter (Holds tr m) := by
      intro t ht
      have hpos : 0 < (takers tr m).count t := Nat.zero_lt_of_lt ht
      have hmade := users_made h t (Or.inl (List.count_pos_iff.mp hpos))
      exact Finset.mem_filter.mpr ⟨Finset.mem_range.mpr hmade, ht⟩
    have hle : ((Finset.range s.made).filter (Holds tr m)).card ≤ 1 := by omega
    exact Finset.card_le_one.mp hle t (hmem t ht) u (hmem u hu)

end Runs

/-- Main takes the one unit of a semaphore. -/
def lockRun : Trace :=
  let s := (mySemaphoreInit myThreadInit 1).2
  [⟨myThreadInit, ⟨0, .semInit 1⟩, s⟩, ⟨s, ⟨0, .semWait 0⟩, s.setSem 0 (some ⟨0, []⟩)⟩]

theorem semaphore_excludes_lock : Holds lockRun 0 0 ∧ ∀ t, Holds lockRun 0 t → t = 0 := by
  have h1 : lib.step myThreadInit ⟨0, .semInit 1⟩ (mySemaphoreInit myThreadInit 1).2 := ⟨rfl, zero_le_one (α := ℤ), rfl⟩
  have h2 : lib.step (mySemaphoreInit myThreadInit 1).2 ⟨0, .semWait 0⟩
      ((mySemaphoreInit myThreadInit 1).2.setSem 0 (some ⟨0, []⟩)) := ⟨rfl, rfl, rfl⟩
  have hrun : lib.Run myThreadInit lockRun _ := (Lts.Run.single h1).snoc h2
  have hd : Disciplined lockRun 0 := by
    intro pre x post heq hx
    have hmem : x ∈ lockRun := heq ▸ List.mem_append_right _ List.mem_cons_self
    simp only [lockRun, List.mem_cons, List.not_mem_nil, or_false] at hmem
    rcases hmem with rfl | rfl
    · cases hx
    · cases hx
  have hmain : Holds lockRun 0 0 := by decide
  obtain ⟨v, hv, -, -, -, hone⟩ := semaphore_excludes hrun hd (x := ⟨0, []⟩) rfl
  have hv1 : v = 1 := by
    have : (1 : ℤ) = v := Option.some.inj hv
    omega
  exact ⟨hmain, fun t ht => hone hv1 t 0 ht hmain⟩

end Threads
end Csc501

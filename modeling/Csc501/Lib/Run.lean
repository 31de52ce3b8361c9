/-
# Runs of a labelled transition system

A system is its start states and its labelled steps. A run is recorded as
the list of the transitions it took, so that a history (who called what, who
was woken by which call, how often) is a function of the run and no state
has to carry it.

Key definitions: `Lts`, `Lts.Run`, `Lts.RunIn`, `Lts.Reachable`.
Key theorems: `Lts.Run.invariant`, `Lts.Run.each_step`, `Lts.Run.step_of_mem`, `Lts.Run.trans`,
`Lts.Run.covers`, `Lts.RunIn.invariant`, `Lts.reachable_invariant`.
-/
import Mathlib.Data.List.Basic

namespace Csc501
namespace Lib

/-- One step taken: the state before, the label, the state after. -/
structure Trans (S A : Type*) where
  src : S
  label : A
  dst : S

/-- A labelled transition system: where it starts and what it may do. -/
structure Lts (S A : Type*) where
  init : S → Prop
  step : S → A → S → Prop

/-- The labels of a run, in order. -/
def labels {S A : Type*} (tr : List (Trans S A)) : List A := tr.map Trans.label

@[simp] theorem labels_nil {S A : Type*} : labels ([] : List (Trans S A)) = [] := rfl

@[simp] theorem labels_append {S A : Type*} (tr tr' : List (Trans S A)) :
    labels (tr ++ tr') = labels tr ++ labels tr' := List.map_append

@[simp] theorem labels_singleton {S A : Type*} (x : Trans S A) : labels [x] = [x.label] := rfl

/-- Where one stands in a list that got a last element: at that element, or before it. -/
theorem snoc_eq_append_cons {α : Type*} {l pre post : List α} {a x : α} (h : l ++ [a] = pre ++ x :: post) :
    (pre = l ∧ x = a ∧ post = []) ∨ ∃ post', post = post' ++ [a] ∧ l = pre ++ x :: post' := by
  rcases List.eq_nil_or_concat' post with rfl | ⟨post, b, rfl⟩
  · obtain ⟨rfl, h2⟩ := List.append_inj' h rfl
    exact Or.inl ⟨rfl, (List.cons.inj h2).1.symm, rfl⟩
  · rw [← List.cons_append, ← List.append_assoc] at h
    obtain ⟨rfl, h2⟩ := List.append_inj' h rfl
    exact Or.inr ⟨post, by rw [(List.cons.inj h2).1], rfl⟩

namespace Lts

variable {S A : Type*} (M : Lts S A)

/-- `M.Run s tr t`: from `s` the transitions `tr`, in order, lead to `t`. -/
inductive Run : S → List (Trans S A) → S → Prop
  | nil (s : S) : Run s [] s
  | snoc {s t u : S} {tr : List (Trans S A)} {a : A} :
      Run s tr t → M.step t a u → Run s (tr ++ [⟨t, a, u⟩]) u

/-- A run all of whose states, the first and the last included, are in `P`. -/
inductive RunIn (P : S → Prop) : S → List (Trans S A) → S → Prop
  | nil {s : S} : P s → RunIn P s [] s
  | snoc {s t u : S} {tr : List (Trans S A)} {a : A} :
      RunIn P s tr t → M.step t a u → P u → RunIn P s (tr ++ [⟨t, a, u⟩]) u

/-- Some run from a start state ends here. -/
def Reachable (s : S) : Prop := ∃ s₀ tr, M.init s₀ ∧ M.Run s₀ tr s

variable {M}

/-- What holds of the empty run and is kept by every step holds of every run. -/
theorem Run.invariant {s₀ : S} {I : List (Trans S A) → S → Prop} (h0 : I [] s₀)
    (hs : ∀ tr s a s', M.Run s₀ tr s → I tr s → M.step s a s' → I (tr ++ [⟨s, a, s'⟩]) s') :
    ∀ {tr s}, M.Run s₀ tr s → I tr s := by
  intro tr s h
  induction h with
  | nil => exact h0
  | snoc hr hst ih => exact hs _ _ _ _ hr ih hst

/-- Each step of a run, judged by the steps before it: `Q` holds of it when it
follows from what `I` says about the state it is taken in. -/
theorem Run.each_step {s₀ : S} {I : List (Trans S A) → S → Prop} {Q : List (Trans S A) → Trans S A → Prop} (h0 : I [] s₀)
    (hs : ∀ tr s a s', I tr s → M.step s a s' → Q tr ⟨s, a, s'⟩ ∧ I (tr ++ [⟨s, a, s'⟩]) s') :
    ∀ {tr s}, M.Run s₀ tr s → I tr s ∧ ∀ pre x post, tr = pre ++ x :: post → Q pre x := by
  intro tr s h
  induction h with
  | nil => exact ⟨h0, fun pre x post h => absurd h (by simp)⟩
  | snoc _ hst ih =>
    obtain ⟨hI, hQ⟩ := ih
    obtain ⟨hQx, hI'⟩ := hs _ _ _ _ hI hst
    refine ⟨hI', fun pre x post h => ?_⟩
    rcases snoc_eq_append_cons h with ⟨rfl, rfl, -⟩ | ⟨post, -, he⟩
    · exact hQx
    · exact hQ pre x post he

/-- The same, if only the labels count. -/
theorem Run.each {s₀ : S} {I : List A → S → Prop} {Q : List A → A → Prop} (h0 : I [] s₀)
    (hs : ∀ as s a s', I as s → M.step s a s' → Q as a ∧ I (as ++ [a]) s') :
    ∀ {tr s}, M.Run s₀ tr s → I (labels tr) s ∧ ∀ pre a post, labels tr = pre ++ a :: post → Q pre a := by
  intro tr s h
  obtain ⟨hI, hQ⟩ := Run.each_step (I := fun tr => I (labels tr)) (Q := fun tr x => Q (labels tr) x.label) h0
    (fun tr s a s' hI hst => by simpa using hs (labels tr) s a s' hI hst) h
  refine ⟨hI, fun pre a post h => ?_⟩
  obtain ⟨tr₁, tr₂, rfl, rfl, h2⟩ := List.map_eq_append_iff.mp h
  obtain ⟨x, tr₃, rfl, rfl, -⟩ := List.map_eq_cons_iff.mp h2
  exact hQ tr₁ x tr₃ rfl

theorem Run.trans {s t u : S} {tr tr' : List (Trans S A)} (h : M.Run s tr t) (h' : M.Run t tr' u) :
    M.Run s (tr ++ tr') u := by
  induction h' with
  | nil => simpa using h
  | snoc _ hst ih =>
    rw [← List.append_assoc]
    exact ih.snoc hst

/-- A transition of a run is a step, taken where a run leads to. -/
theorem Run.step_of_mem {s t : S} {tr : List (Trans S A)} (h : M.Run s tr t) {x : Trans S A} (hx : x ∈ tr) :
    (∃ tr', M.Run s tr' x.src) ∧ M.step x.src x.label x.dst := by
  induction h with
  | nil => exact absurd hx List.not_mem_nil
  | snoc hr hst ih =>
    rcases List.mem_append.mp hx with hx | hx
    · exact ih hx
    · obtain rfl := List.mem_singleton.mp hx
      exact ⟨⟨_, hr⟩, hst⟩

/-- The rest of a run is a run. -/
theorem Run.suffix {s₀ s : S} {tr : List (Trans S A)} (h : M.Run s₀ tr s) {pre post : List (Trans S A)}
    {x : Trans S A} (he : tr = pre ++ x :: post) : M.Run x.src (x :: post) s := by
  induction h generalizing post with
  | nil => simp at he
  | snoc hr hst ih =>
    rcases snoc_eq_append_cons he with ⟨-, rfl, rfl⟩ | ⟨post, rfl, htr⟩
    · exact (Run.nil _).snoc hst
    · rw [← List.cons_append]
      exact (ih htr).snoc hst

theorem Run.single {s t : S} {a : A} (h : M.step s a t) : M.Run s [⟨s, a, t⟩] t :=
  (Run.nil s).snoc h

/-- The first part of a run is a run, to where the rest starts. -/
theorem Run.split {s u : S} {tr tr' : List (Trans S A)} (h : M.Run s (tr ++ tr') u) :
    ∃ t, M.Run s tr t ∧ M.Run t tr' u := by
  generalize he : tr ++ tr' = w at h
  induction h generalizing tr' with
  | nil =>
    obtain ⟨rfl, rfl⟩ := List.append_eq_nil_iff.mp he
    exact ⟨s, .nil s, .nil s⟩
  | @snoc v u w a hr hst ih =>
    rcases List.eq_nil_or_concat' tr' with rfl | ⟨tr', x, rfl⟩
    · rw [List.append_nil] at he
      exact ⟨u, he ▸ hr.snoc hst, .nil u⟩
    · rw [← List.append_assoc] at he
      obtain ⟨h1, h2⟩ := List.append_inj' he rfl
      obtain rfl : x = ⟨v, a, u⟩ := (List.cons.inj h2).1
      obtain ⟨t, ht, ht'⟩ := ih h1
      exact ⟨t, ht, by simpa using ht'.snoc hst⟩

/-- Where a run ends is told by its transitions. -/
theorem Run.end_unique {s t u : S} {tr : List (Trans S A)} (h : M.Run s tr t) (h' : M.Run s tr u) : t = u := by
  cases h with
  | nil =>
    generalize he : ([] : List (Trans S A)) = w at h'
    cases h' with
    | nil => rfl
    | snoc => simp at he
  | @snoc v t tr a hr hst =>
    generalize he : tr ++ [⟨v, a, t⟩] = w at h'
    cases h' with
    | nil => simp at he
    | snoc =>
      obtain ⟨-, h2⟩ := List.append_inj' he rfl
      exact congrArg Trans.dst (List.cons.inj h2).1

theorem Run.first_step {s u : S} {x : Trans S A} {tr : List (Trans S A)} (h : M.Run s (x :: tr) u) :
    x.src = s ∧ M.step x.src x.label x.dst := by
  refine ⟨?_, (h.step_of_mem List.mem_cons_self).2⟩
  rw [← List.singleton_append] at h
  obtain ⟨t, ht, -⟩ := h.split
  generalize he : [x] = y at ht
  cases ht with
  | nil => simp at he
  | @snoc c _ z d hz hst =>
    obtain ⟨rfl, h2⟩ := List.append_inj' (show [] ++ [x] = _ from he) rfl
    rw [(List.cons.inj h2).1]
    exact hz.end_unique (.nil _)

/-- If at most one step is possible in each state, a run that ends where none is has all
other runs in it. -/
theorem Run.covers {s t : S} {tr : List (Trans S A)} (h : M.Run s tr t) (hend : ∀ a u, ¬ M.step t a u)
    (hdet : ∀ s a t a' t', M.step s a t → M.step s a' t' → a = a' ∧ t = t') {tr' : List (Trans S A)} {t' : S}
    (h' : M.Run s tr' t') : tr' <+: tr := by
  induction h' with
  | nil => exact List.nil_prefix
  | @snoc v u w a hr hst ih =>
    obtain ⟨rest, rfl⟩ := ih
    obtain ⟨v', hv, hrest⟩ := h.split
    obtain rfl := hr.end_unique hv
    cases rest with
    | nil =>
      obtain rfl := hrest.end_unique (.nil _)
      exact absurd hst (hend a u)
    | cons x rest =>
      obtain ⟨rfl, hx⟩ := hrest.first_step
      obtain ⟨rfl, rfl⟩ := hdet _ _ _ _ _ hst hx
      exact ⟨rest, by simp⟩

theorem RunIn.first {P : S → Prop} {s t : S} {tr : List (Trans S A)} (h : M.RunIn P s tr t) : P s := by
  induction h with
  | nil h => exact h
  | snoc _ _ _ ih => exact ih

theorem RunIn.last {P : S → Prop} {s t : S} {tr : List (Trans S A)} (h : M.RunIn P s tr t) : P t := by
  cases h with
  | nil h => exact h
  | snoc _ _ h => exact h

/-- What holds of the empty run and is kept by every step inside `P` holds of every run
inside `P`. -/
theorem RunIn.invariant {P : S → Prop} {s₀ : S} {I : List (Trans S A) → S → Prop} (h0 : I [] s₀)
    (hs : ∀ tr s a s', I tr s → P s → M.step s a s' → P s' → I (tr ++ [⟨s, a, s'⟩]) s') :
    ∀ {tr s}, M.RunIn P s₀ tr s → I tr s := by
  intro tr s h
  induction h with
  | nil => exact h0
  | snoc hr hst hp ih => exact hs _ _ _ _ ih hr.last hst hp

/-- What holds at every start and is kept by every step holds of every
reachable state. -/
theorem reachable_invariant {I : S → Prop} (h0 : ∀ s, M.init s → I s)
    (hs : ∀ s a s', M.Reachable s → I s → M.step s a s' → I s') :
    ∀ {s}, M.Reachable s → I s := by
  rintro s ⟨s₀, tr, hi, hr⟩
  induction hr with
  | nil => exact h0 _ hi
  | snoc hr hst ih => exact hs _ _ _ ⟨s₀, _, hi, hr⟩ ih hst

theorem Reachable.step {s s' : S} {a : A} (h : M.Reachable s) (hst : M.step s a s') : M.Reachable s' := by
  obtain ⟨s₀, tr, hi, hr⟩ := h
  exact ⟨s₀, _, hi, hr.snoc hst⟩

end Lts

end Lib
end Csc501

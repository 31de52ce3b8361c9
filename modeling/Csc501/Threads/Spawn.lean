/-
# Programs that only spawn run breadth first

The programs of `tests/tree.c` that neither yield nor join, for any tree: the body of
each thread makes its children in order and exits. `MyThreadCreate` gives a thread its
context, which is where it starts and what is left of it; the body of the running thread
decides on the next call.

The threads run in the order in which they are made, and while one runs, those behind it
are ready, in this order (`At`). Seen as a forest, the ready queue loses its first tree
and gets the children of it at its end, so after all of one level it is the next one.

Key definitions: `Context`, `Process`, `spawn`, `block`, `schedule`, `At`.
Key theorems: `At.create`, `At.exit`, `run_thread`, `run_level`, `spawn_breadth_first`.
-/
import Csc501.Lib.Forest
import Csc501.Threads.Sched

namespace Csc501
namespace Threads

open Lib

variable {α : Type}

/-- The context of a thread: the tree it was started on, and the children that it has
not made yet. -/
structure Context (α : Type) where
  start : RoseTree α
  left : List (RoseTree α)

/-- `makecontext`: the body starts at its beginning. -/
def makeContext (t : RoseTree α) : Context α := ⟨t, t.children⟩

/-- The context at the end of the body. -/
def finished (t : RoseTree α) : Context α := ⟨t, []⟩

/-- The library and the contexts of the threads. -/
structure Process (α : Type) where
  lib : State
  contexts : Tid → Option (Context α)

/-- `MyThreadInit` on the root of a tree. -/
def startOn (root : RoseTree α) : Process α :=
  ⟨myThreadInit, Function.update (fun _ => none) 0 (some (makeContext root))⟩

/-- The body of the running thread goes on to its next call: it makes the next child, or
exits. Nothing runs once `MyThreadInit` has returned. -/
def spawnStep (p : Process α) : Option (Event × Process α) := do
  let c ← p.lib.currentThread
  let x ← p.contexts c
  match x.left with
  | [] => some (⟨c, .exit⟩, { p with lib := myThreadExit p.lib c })
  | t :: ts =>
    let (thread, s) := myThreadCreate p.lib c
    let contexts := Function.update p.contexts c (some { x with left := ts })
    some (⟨c, .create⟩, ⟨s, Function.update contexts thread (some (makeContext t))⟩)

/-- The programs that only spawn. -/
def spawn (root : RoseTree α) : Lts (Process α) Event where
  init p := p = startOn root
  step p e p' := spawnStep p = some (e, p')

/-- The calls of thread `c` on the tree `t`. -/
def block (c : Tid) (t : RoseTree α) : List Event := List.replicate t.children.length ⟨c, .create⟩ ++ [⟨c, .exit⟩]

/-- The calls of the threads `c`, `c + 1`, ... on the trees `ts`, one thread after the
other. -/
def schedule (c : Tid) : List (RoseTree α) → List Event
  | [] => []
  | t :: ts => block c t ++ schedule (c + 1) ts

theorem schedule_append (c : ℕ) (ts us : List (RoseTree α)) :
    schedule c (ts ++ us) = schedule c ts ++ schedule (c + ts.length) us := by
  induction ts generalizing c with
  | nil => rfl
  | cons t ts ih => simp only [List.cons_append, schedule, ih, List.append_assoc, List.length_cons, Nat.add_assoc,
      Nat.add_comm 1]

/-- What these programs do, a program may do. -/
theorem spawn_lib {root : RoseTree α} {p p' : Process α} {e : Event} (h : (spawn root).step p e p') :
    lib.step p.lib e p'.lib := by
  obtain ⟨c, hc, h⟩ := Option.bind_eq_some_iff.mp h
  obtain ⟨⟨t, left⟩, -, h⟩ := Option.bind_eq_some_iff.mp h
  cases left with
  | nil =>
    obtain ⟨rfl, rfl⟩ := Prod.mk.inj (Option.some.inj h)
    exact ⟨hc, trivial, rfl⟩
  | cons u us =>
    obtain ⟨rfl, rfl⟩ := Prod.mk.inj (Option.some.inj h)
    exact ⟨hc, trivial, rfl⟩

theorem spawn_run {root : RoseTree α} {p : Process α} {tr : List (Trans (Process α) Event)}
    (h : (spawn root).Run (startOn root) tr p) : ∃ tr', lib.Run myThreadInit tr' p.lib ∧ labels tr' = labels tr := by
  induction h with
  | nil => exact ⟨[], .nil _, rfl⟩
  | snoc _ hst ih =>
    obtain ⟨tr', hr, hlab⟩ := ih
    exact ⟨_, hr.snoc (spawn_lib hst), by simp [hlab]⟩

/-! ### One call -/

/-- Thread `c` runs, with the threads behind it ready in order; `xs` are the contexts of
all threads, in the order in which they were made. -/
structure At (p : Process α) (xs : List (Context α)) (c : ℕ) : Prop where
  contexts : ∀ i, p.contexts i = xs[i]?
  made : p.lib.made = xs.length
  next : (p.lib.currentThread, p.lib.readyQueue) = dequeue (List.range' c (xs.length - c))
  blocked : p.lib.blockedQueue = []

theorem at_start (root : RoseTree α) : At (startOn root) [makeContext root] 0 where
  contexts i := by
    cases i with
    | zero => rfl
    | succ i => rfl
  made := rfl
  next := rfl
  blocked := rfl

section Calls

variable (root : RoseTree α) {p : Process α} {xs : List (Context α)} {c : ℕ} {t : RoseTree α}

/-- Who runs and who is ready. -/
theorem At.running (h : At p xs c) (hc : c < xs.length) :
    p.lib.currentThread = some c ∧ p.lib.readyQueue = List.range' (c + 1) (xs.length - c - 1) := by
  have hlen : xs.length - c = (xs.length - c - 1) + 1 := by omega
  have hnext := h.next
  rw [hlen, List.range'_succ] at hnext
  exact Prod.mk.inj hnext

theorem At.context (h : At p xs c) {x : Context α} (hx : xs[c]? = some x) : p.contexts c = some x :=
  (h.contexts c).trans hx

theorem contexts_create {f : Tid → Option (Context α)} (hf : ∀ i, f i = xs[i]?) (hc : c < xs.length)
    (y z : Context α) (i : ℕ) :
    Function.update (Function.update f c (some y)) xs.length (some z) i = (xs.set c y ++ [z])[i]? := by
  rcases lt_trichotomy i xs.length with hi | rfl | hi
  · rw [Function.update_of_ne hi.ne, List.getElem?_append_left (by simpa using hi), Function.update_apply,
      List.getElem?_set, hf]
    split_ifs with h1 h2 h2
    · rfl
    · exact absurd h1.symm h2
    · exact absurd h2.symm h1
    · rfl
  · simp
  · have hic : i ≠ c := (hc.trans hi).ne'
    have hlen : (xs.set c y ++ [z]).length ≤ i := by simpa using Nat.succ_le_of_lt hi
    rw [Function.update_of_ne hi.ne', Function.update_of_ne hic, hf, List.getElem?_eq_none hi.le,
      List.getElem?_eq_none hlen]

/-- Every child is made behind all threads there are. -/
theorem At.create (h : At p xs c) {u : RoseTree α} {us : List (RoseTree α)} (hx : xs[c]? = some ⟨t, u :: us⟩) :
    ∃ p', (spawn root).step p ⟨c, .create⟩ p' ∧ At p' (xs.set c ⟨t, us⟩ ++ [makeContext u]) c := by
  have hc : c < xs.length := (List.getElem?_eq_some_iff.mp hx).1
  obtain ⟨hcur, hready⟩ := h.running hc
  refine ⟨⟨(myThreadCreate p.lib c).2,
    Function.update (Function.update p.contexts c (some ⟨t, us⟩)) p.lib.made (some (makeContext u))⟩, ?_, ?_, ?_, ?_, ?_⟩
  · show spawnStep p = _
    simp only [spawnStep, hcur, h.context hx, Option.bind_eq_bind, Option.bind_some]
    rfl
  · rw [h.made]
    exact contexts_create h.contexts hc ⟨t, us⟩ (makeContext u)
  · rw [List.length_append, List.length_set, ← h.made]
    rfl
  · have hlen : (xs.set c ⟨t, us⟩ ++ [makeContext u]).length - c = (xs.length - c - 1) + 1 + 1 := by
      rw [List.length_append, List.length_set, List.length_singleton]
      omega
    have hlast : c + 1 + (xs.length - c - 1) = xs.length := by omega
    rw [hlen, List.range'_succ, List.range'_concat, Nat.one_mul, hlast, ← hready, ← h.made]
    exact congrArg (·, _) hcur
  · exact h.blocked

theorem leaveParent_queues (s : State) (c : Tid) :
    (leaveParent s c).made = s.made ∧ (leaveParent s c).readyQueue = s.readyQueue ∧
      (leaveParent s c).blockedQueue = s.blockedQueue := by
  unfold leaveParent
  cases (s.threads c).parent with
  | none => exact ⟨rfl, rfl, rfl⟩
  | some p => exact ⟨rfl, rfl, rfl⟩

/-- Where nobody is blocked, an exit wakes nobody. -/
theorem wakeParent_of_idle {s : State} (h : s.blockedQueue = []) (c : Tid) : wakeParent s c = s := by
  unfold wakeParent
  cases (s.threads c).parent with
  | none => rfl
  | some p => simp [h, contains]

/-- The next thread runs after an exit. -/
theorem At.exit (h : At p xs c) (hx : xs[c]? = some ⟨t, []⟩) :
    ∃ p', (spawn root).step p ⟨c, .exit⟩ p' ∧ At p' xs (c + 1) := by
  have hc : c < xs.length := (List.getElem?_eq_some_iff.mp hx).1
  obtain ⟨hcur, hready⟩ := h.running hc
  obtain ⟨hm, hr, hb⟩ := leaveParent_queues p.lib c
  have hexit : myThreadExit p.lib c = getNextThread (leaveParent p.lib c) := by
    rw [myThreadExit, wakeParent_of_idle (hb.trans h.blocked)]
  refine ⟨⟨myThreadExit p.lib c, p.contexts⟩, ?_, h.contexts, ?_, ?_, ?_⟩
  · show spawnStep p = _
    simp only [spawnStep, hcur, h.context hx, Option.bind_eq_bind, Option.bind_some]
  · rw [hexit, getNextThread_made, hm, h.made]
  · rw [hexit, getNextThread, hr, hready]
    rfl
  · rw [hexit, getNextThread_blocked, hb, h.blocked]

theorem At.halted (h : At p xs xs.length) : p.lib.currentThread = none := by
  have hnext := h.next
  rw [Nat.sub_self] at hnext
  exact (Prod.mk.inj hnext).1

end Calls

/-! ### One thread after the other -/

/-- The contexts once the threads on `done` have exited, before those on `todo` run. -/
def between (done todo : List (RoseTree α)) : List (Context α) := done.map finished ++ todo.map makeContext

section Runs

variable (root : RoseTree α) {p : Process α}

theorem getElem?_running (done : List (RoseTree α)) (x : Context α) (xs : List (Context α)) :
    (done.map finished ++ x :: xs)[done.length]? = some x := by
  rw [List.getElem?_append_right (by simp), List.length_map, Nat.sub_self]
  rfl

theorem set_running (done : List (RoseTree α)) (x y : Context α) (xs : List (Context α)) :
    (done.map finished ++ x :: xs).set done.length y = done.map finished ++ y :: xs := by
  rw [List.set_append_right _ _ (by simp), List.length_map, Nat.sub_self, List.set_cons_zero]

/-- The children of the running thread get ready behind the trees `ts`. -/
theorem run_creates {done ts : List (RoseTree α)} {t : RoseTree α} : ∀ {left made : List (RoseTree α)} {p : Process α},
    At p (done.map finished ++ ⟨t, left⟩ :: (ts ++ made).map makeContext) done.length →
    ∃ tr p', (spawn root).Run p tr p' ∧ labels tr = List.replicate left.length ⟨done.length, .create⟩ ∧
      At p' (done.map finished ++ finished t :: (ts ++ (made ++ left)).map makeContext) done.length
  | [], made, p, h => ⟨[], p, .nil p, rfl, by rwa [List.append_nil]⟩
  | u :: left, made, p, h => by
    obtain ⟨p₁, hst, h₁⟩ := h.create root (getElem?_running done ⟨t, u :: left⟩ _)
    rw [set_running] at h₁
    have hcontexts : done.map finished ++ ⟨t, left⟩ :: (ts ++ made).map makeContext ++ [makeContext u] =
        done.map finished ++ ⟨t, left⟩ :: (ts ++ (made ++ [u])).map makeContext := by simp
    rw [hcontexts] at h₁
    obtain ⟨tr, p', hrun, hlab, h'⟩ := run_creates h₁
    refine ⟨[⟨p, ⟨done.length, .create⟩, p₁⟩] ++ tr, p', (Lts.Run.single hst).trans hrun, ?_, ?_⟩
    · rw [labels_append, labels_singleton, hlab]
      rfl
    · rwa [List.append_assoc, List.singleton_append] at h'

/-- **A thread runs through**, and the children it made are the last to wait. -/
theorem run_thread {done ts : List (RoseTree α)} {t : RoseTree α} (h : At p (between done (t :: ts)) done.length) :
    ∃ tr p', (spawn root).Run p tr p' ∧ labels tr = block done.length t ∧
      At p' (between (done ++ [t]) (ts ++ t.children)) (done ++ [t]).length := by
  have h₀ : At p (done.map finished ++ ⟨t, t.children⟩ :: (ts ++ []).map makeContext) done.length := by
    rw [List.append_nil]
    exact h
  obtain ⟨tr, p₁, hrun, hlab, h₁⟩ := run_creates root h₀
  obtain ⟨p', hst, h'⟩ := h₁.exit root (getElem?_running done (finished t) _)
  refine ⟨tr ++ [⟨p₁, ⟨done.length, .exit⟩, p'⟩], p', hrun.snoc hst, ?_, ?_⟩
  · rw [labels_append, labels_singleton, hlab, block]
  · simpa [between] using h'

/-- The threads on `ts` run, and the level below them waits behind `us`. -/
theorem run_level : ∀ {ts us done : List (RoseTree α)} {p : Process α}, At p (between done (ts ++ us)) done.length →
    ∃ tr p', (spawn root).Run p tr p' ∧ labels tr = schedule done.length ts ∧
      At p' (between (done ++ ts) (us ++ below ts)) (done ++ ts).length
  | [], us, done, p, h => ⟨[], p, .nil p, rfl, by simpa [below] using h⟩
  | t :: ts, us, done, p, h => by
    rw [List.cons_append] at h
    obtain ⟨tr₁, p₁, hrun₁, hlab₁, h₁⟩ := run_thread root h
    rw [List.append_assoc] at h₁
    obtain ⟨tr₂, p₂, hrun₂, hlab₂, h₂⟩ := run_level h₁
    refine ⟨tr₁ ++ tr₂, p₂, hrun₁.trans hrun₂, ?_, by simpa using h₂⟩
    rw [labels_append, hlab₁, hlab₂, List.length_append]
    rfl

/-- The first `n` levels run. -/
theorem run_levels (n : ℕ) : ∀ {ts done : List (RoseTree α)} {p : Process α}, At p (between done ts) done.length →
    ∃ tr p', (spawn root).Run p tr p' ∧ labels tr = schedule done.length ((List.range n).flatMap (level ts)) ∧
      At p' (between (done ++ (List.range n).flatMap (level ts)) (level ts n))
        (done ++ (List.range n).flatMap (level ts)).length := by
  induction n with
  | zero => exact fun {ts done p} h => ⟨[], p, .nil p, rfl, by simpa [level] using h⟩
  | succ n ih =>
    intro ts done p h
    rw [← List.append_nil ts] at h
    obtain ⟨tr₁, p₁, hrun₁, hlab₁, h₁⟩ := run_level root h
    rw [List.nil_append] at h₁
    obtain ⟨tr₂, p₂, hrun₂, hlab₂, h₂⟩ := ih h₁
    have hlevels : (List.range (n + 1)).flatMap (level ts) = ts ++ (List.range n).flatMap (level (below ts)) := by
      rw [List.range_succ_eq_map, List.flatMap_cons, List.flatMap_map]
      rfl
    refine ⟨tr₁ ++ tr₂, p₂, hrun₁.trans hrun₂, ?_, ?_⟩
    · rw [labels_append, hlab₁, hlab₂, hlevels, schedule_append, List.length_append]
    · rw [hlevels, ← List.append_assoc]
      exact h₂

end Runs

/-- **Programs that only spawn run breadth first.** On every tree, the run that
`MyThreadInit` starts on its root ends with nobody left to run; thread `i` was started on
the `i`-th node of the tree in level order, the levels list every node once, and the
calls are those of thread 0, then those of thread 1, and so on: each makes its children
in order and exits, without a call of another in between. They are calls of the library,
and no other run is possible. -/
theorem spawn_breadth_first (root : RoseTree α) : ∃ tr p, (spawn root).Run (startOn root) tr p ∧
    p.lib.currentThread = none ∧ labels tr = schedule 0 (levelOrder [root]) ∧
    (∀ i, p.contexts i = (levelOrder [root])[i]?.map finished) ∧ (levelOrder [root]).Perm (nodes [root]) ∧
    (∃ tr', lib.Run myThreadInit tr' p.lib ∧ labels tr' = labels tr) ∧
    ∀ tr' p', (spawn root).Run (startOn root) tr' p' → tr' <+: tr := by
  have hstart : At (startOn root) (between [] [root]) ([] : List (RoseTree α)).length := at_start root
  obtain ⟨tr, p, hrun, hlab, hat⟩ := run_levels root (depth [root]) hstart
  rw [level_depth le_rfl] at hat
  change At p (between (levelOrder [root]) []) (levelOrder [root]).length at hat
  have hlen : (between (levelOrder [root]) []).length = (levelOrder [root]).length := by simp [between]
  rw [← hlen] at hat
  have hhalt : p.lib.currentThread = none := hat.halted
  refine ⟨tr, p, hrun, hhalt, hlab, ?_, levelOrder_perm [root], spawn_run hrun, ?_⟩
  · intro i
    rw [hat.contexts, between, List.map_nil, List.append_nil, List.getElem?_map]
  · intro tr' p' h'
    refine hrun.covers ?_ ?_ h'
    · intro e u hst
      change spawnStep p = _ at hst
      simp [spawnStep, hhalt] at hst
    · intro q e u e' u' h1 h2
      exact Prod.mk.inj (Option.some.inj (h1.symm.trans h2))

end Threads
end Csc501

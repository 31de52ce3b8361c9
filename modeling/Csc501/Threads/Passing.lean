/-
# Threads that pass on a number

`tests/passing.c`: a thread on a number above zero makes one on the number below, and then
exits at once, yields first, or joins the new thread, as the mode says. The file
`tests/passing-2-1.output` and those beside it have what is printed for some numbers and
modes; here it is proved for all of them (`passing_prints`).

Without a join no thread is ever blocked, and at most two are ready (`Calm`). With joins all
threads but the running one are blocked, each on the one it made (`Stack`): they end in the
reverse order. `int` is unbounded here; `n1 - 1` overflows for the smallest `int` alone.

Key definitions: `Line`, `Point`, `next`, `program`, `lines`, `Done`, `Calm`, `Stack`, `Chain`.
Key theorems: `calm_ends`, `yields_end`, `Stack.push`, `Stack.pop`, `chain_up`, `chain_ends`, `passing_prints`.
-/
import Csc501.Threads.Program
import Csc501.Threads.Spawn

namespace Csc501
namespace Threads
namespace Passing

open Lib

/-- What is printed. -/
inductive Line
  | start (n : ℤ)
  | create
  | ended
  deriving DecidableEq, Repr

/-- The points of the body at which a thread makes a call: at its start, behind
`MyThreadCreate`, and behind the call the mode asks for. -/
inductive Point
  | start (n : ℤ)
  | made (thread : Tid)
  | rest
  deriving DecidableEq, Repr

/-- The body of `t0`, from one call to the next. -/
def next (mode : ℤ) (_ : Tid) : Point → List Line → Request Point × List Line
  | .start n, out =>
    if n > 0 then (.create (.start (n - 1)) .made, out ++ [.start n, .create])
    else (.exit, out ++ [.start n, .ended])
  | .made thread, out =>
    if mode = 1 then (.yield .rest, out)
    else if mode = 2 then (.join thread fun _ => .rest, out)
    else (.exit, out ++ [.ended])
  | .rest, out => (.exit, out ++ [.ended])

/-- `MyThreadInit(t0, (void *)count)`. With one argument `main` leaves the mode at 0. -/
def program (mode count : ℤ) : Program Point (List Line) := ⟨.start count, [], next mode⟩

abbrev Proc := Image Point (List Line)

/-! ### What is to be printed -/

/-- One thread after the other. -/
def plainLines : ℕ → ℤ → List Line
  | 0, n => [.start n, .ended]
  | k + 1, n => [.start n, .create, .ended] ++ plainLines k (n - 1)

/-- Each thread ends behind the start of the next one; `.ended` is owed by the one before. -/
def yieldLines : ℕ → ℤ → List Line
  | 0, n => [.start n, .ended, .ended]
  | k + 1, n => [.start n, .create, .ended] ++ yieldLines k (n - 1)

/-- Each thread ends behind the next one. -/
def joinLines : ℕ → ℤ → List Line
  | 0, n => [.start n, .ended]
  | k + 1, n => [.start n, .create] ++ joinLines k (n - 1) ++ [.ended]

/-- The output of `passing.c` for a count and a mode. -/
def lines (mode count : ℤ) : List Line :=
  if mode = 1 then
    if count > 0 then [.start count, .create] ++ yieldLines (count - 1).toNat (count - 1) else [.start count, .ended]
  else if mode = 2 then joinLines count.toNat count
  else plainLines count.toNat count

/-- Every thread has exited, and `out` was printed. -/
structure Done (p : Proc) (out : List Line) : Prop where
  current : p.lib.currentThread = none
  ready : p.lib.readyQueue = []
  blocked : p.lib.blockedQueue = []
  contexts : p.contexts = fun _ => none
  memory : p.memory = out

/-! ### Nobody is blocked -/

/-- The thread `c` runs, those of `ready` come next, and no thread is blocked. -/
structure Calm (p : Proc) (made : ℕ) (c : Tid) (ready : Queue) (out : List Line) : Prop where
  current : p.lib.currentThread = some c
  ready : p.lib.readyQueue = ready
  blocked : p.lib.blockedQueue = []
  made : p.lib.made = made
  memory : p.memory = out

/-- From `p` on there is a run to the end, with `out` printed then. -/
def Ends (mode count : ℤ) (p : Proc) (out : List Line) : Prop :=
  ∃ tr q, (program mode count).lts.Run p tr q ∧ Done q out

section Calm

variable {mode count : ℤ} {p q : Proc} {e : Event} {k : ℕ} {c d : Tid} {ready : Queue} {out out' final : List Line}
  {x y : Point}

theorem Ends.step (hst : (program mode count).lts.step p e q) (h : Ends mode count q out) : Ends mode count p out := by
  obtain ⟨tr, r, hrun, hdone⟩ := h
  exact ⟨_, r, (Lts.Run.single hst).trans hrun, hdone⟩

theorem Ends.done (hst : (program mode count).lts.step p e q) (h : Done q out) : Ends mode count p out :=
  ⟨_, q, .single hst, h⟩

theorem Calm.exec (h : Calm p k c ready out) (hx : p.contexts c = some x) :
    (program mode count).exec p = Program.respond p c (next mode c x out).2 (next mode c x out).1 := by
  rw [Program.exec_at h.current hx, h.memory]
  rfl

theorem Calm.create {f : Tid → Point} (h : Calm p k c ready out) (hx : p.contexts c = some x)
    (hnext : next mode c x out = (.create y f, out'))
    (hrest : ∀ q, Calm q (k + 1) c (ready ++ [k]) out' →
      q.contexts = Function.update (Function.update p.contexts c (some (f k))) k (some y) → Ends mode count q final) :
    Ends mode count p final := by
  refine .step ((h.exec hx).trans (by rw [hnext]; rfl)) (hrest _ ?_ ?_)
  · exact ⟨h.current, by rw [← h.ready, ← h.made]; rfl, h.blocked, congrArg (· + 1) h.made, rfl⟩
  · rw [← h.made]
    rfl

theorem Calm.yield (h : Calm p k c (d :: ready) out) (hx : p.contexts c = some x)
    (hnext : next mode c x out = (.yield y, out'))
    (hrest : ∀ q, Calm q k d (ready ++ [c]) out' → q.contexts = Function.update p.contexts c (some y) →
      Ends mode count q final) : Ends mode count p final := by
  have hnew : enqueue p.lib.readyQueue c = d :: (ready ++ [c]) := by
    rw [h.ready]
    rfl
  have hst : (program mode count).lts.step p ⟨c, .yield⟩
      ⟨myThreadYield p.lib c, Function.update p.contexts c (some y), out'⟩ :=
    (h.exec hx).trans (by rw [hnext]; rfl)
  refine .step hst (hrest _ ⟨?_, ?_, h.blocked, h.made, rfl⟩ rfl)
  · simp [myThreadYield, getNextThread, hnew, dequeue]
  · simp [myThreadYield, getNextThread, hnew, dequeue]

theorem exit_calm {s : State} (h : s.blockedQueue = []) (c : Tid) :
    (myThreadExit s c).currentThread = (dequeue s.readyQueue).1 ∧
      (myThreadExit s c).readyQueue = (dequeue s.readyQueue).2 ∧ (myThreadExit s c).blockedQueue = [] ∧
      (myThreadExit s c).made = s.made := by
  obtain ⟨hmade, hready, hblocked⟩ := leaveParent_queues s c
  rw [myThreadExit, wakeParent_of_idle (hblocked.trans h)]
  refine ⟨?_, ?_, hblocked.trans h, hmade⟩
  · exact congrArg (fun q => (dequeue q).1) hready
  · exact congrArg (fun q => (dequeue q).2) hready

theorem Calm.exit (h : Calm p k c (d :: ready) out) (hx : p.contexts c = some x)
    (hnext : next mode c x out = (.exit, out'))
    (hrest : ∀ q, Calm q k d ready out' → q.contexts = Function.update p.contexts c none → Ends mode count q final) :
    Ends mode count p final := by
  obtain ⟨hcur, hready, hblocked, hmade⟩ := exit_calm h.blocked c
  rw [h.ready] at hcur hready
  refine .step ((h.exec hx).trans (by rw [hnext]; rfl)) (hrest _ ?_ rfl)
  exact ⟨hcur, hready, hblocked, hmade.trans h.made, rfl⟩

/-- The last thread exits. -/
theorem Calm.last (h : Calm p k c [] out) (hx : p.contexts = Function.update (fun _ => none) c (some x))
    (hnext : next mode c x out = (.exit, out')) : Ends mode count p out' := by
  obtain ⟨hcur, hready, hblocked, -⟩ := exit_calm h.blocked c
  rw [h.ready] at hcur hready
  have hat : p.contexts c = some x := by rw [hx, Function.update_self]
  refine .done ((h.exec hat).trans (by rw [hnext]; rfl)) ⟨hcur, hready, hblocked, ?_, rfl⟩
  show Function.update p.contexts c none = fun _ => none
  rw [hx, Function.update_idem]
  exact Function.update_eq_self c (fun _ => none)

end Calm

/-! ### Plain runs, and runs with yields -/

section Next

variable {mode n : ℤ} {c t : Tid} {out : List Line}

theorem next_start_pos (h : 0 < n) :
    next mode c (.start n) out = (.create (.start (n - 1)) .made, out ++ [.start n, .create]) := if_pos h

theorem next_start_neg (h : n ≤ 0) : next mode c (.start n) out = (.exit, out ++ [.start n, .ended]) :=
  if_neg (not_lt.mpr h)

theorem next_made_plain (h1 : mode ≠ 1) (h2 : mode ≠ 2) :
    next mode c (.made t) out = (.exit, out ++ [.ended]) := by
  rw [next, if_neg h1, if_neg h2]

theorem next_made_yield (h1 : mode = 1) : next mode c (.made t) out = (.yield .rest, out) := if_pos h1

theorem next_made_join (h2 : mode = 2) : next mode c (.made t) out = (.join t fun _ => .rest, out) := by
  rw [next, if_neg (by omega), if_pos h2]

/-- What a thread left behind is gone with it. -/
theorem forget {t u : Tid} (h : u ≠ t) {x y : Option Point} :
    Function.update (Function.update (Function.update (fun _ => none) t x) u y) t none =
      Function.update (fun _ => (none : Option Point)) u y := by
  rw [Function.update_comm h, Function.update_idem]
  exact congrArg (Function.update · u y) (Function.update_eq_self t (fun _ => none))

end Next

/-- **One thread after the other**, in the modes that neither yield nor join. -/
theorem calm_ends {mode count : ℤ} (h1 : mode ≠ 1) (h2 : mode ≠ 2) : ∀ (k : ℕ) {n : ℤ} {p : Proc} {t : ℕ}
    {out : List Line}, n.toNat = k → Calm p (t + 1) t [] out →
    p.contexts = Function.update (fun _ => none) t (some (.start n)) → Ends mode count p (out ++ plainLines k n)
  | 0, n, p, t, out, hn, h, hx => h.last hx (next_start_neg (by omega))
  | k + 1, n, p, t, out, hn, h, hx => by
    refine h.create (by rw [hx, Function.update_self]) (next_start_pos (by omega)) fun q hq hqx => ?_
    have hat : q.contexts t = some (.made (t + 1)) := by
      rw [hqx, Function.update_of_ne (Nat.succ_ne_self t).symm, Function.update_self]
    refine hq.exit hat (next_made_plain h1 h2) fun r hr hrx => ?_
    have hrx' : r.contexts = Function.update (fun _ => none) (t + 1) (some (.start (n - 1))) := by
      rw [hrx, hqx, hx, Function.update_idem, forget (Nat.succ_ne_self t)]
    have hend : Ends mode count r _ := calm_ends h1 h2 k (by omega) hr hrx'
    simpa [plainLines] using hend

/-- **With yields** a thread ends when the next one has made the one behind it. -/
theorem yields_end {mode count : ℤ} (h1 : mode = 1) : ∀ (k : ℕ) {n : ℤ} {p : Proc} {t : ℕ} {out : List Line},
    n.toNat = k → Calm p (t + 2) (t + 1) [t] out →
    p.contexts = Function.update (Function.update (fun _ => none) t (some .rest)) (t + 1) (some (.start n)) →
    Ends mode count p (out ++ yieldLines k n)
  | 0, n, p, t, out, hn, h, hx => by
    refine h.exit (by rw [hx, Function.update_self]) (next_start_neg (by omega)) fun q hq hqx => ?_
    have hq' : q.contexts = Function.update (fun _ => none) t (some .rest) := by
      rw [hqx, hx, Function.update_comm (Nat.succ_ne_self t).symm, forget (Nat.succ_ne_self t).symm]
    have hlast : Ends mode count q _ := hq.last hq' rfl
    simpa [yieldLines] using hlast
  | k + 1, n, p, t, out, hn, h, hx => by
    refine h.create (by rw [hx, Function.update_self]) (next_start_pos (by omega)) fun q hq hqx => ?_
    have hat : q.contexts (t + 1) = some (.made (t + 2)) := by
      rw [hqx, Function.update_of_ne (Nat.succ_ne_self (t + 1)).symm, Function.update_self]
    refine hq.yield hat (next_made_yield h1) fun r hr hrx => ?_
    have hrest : r.contexts t = some .rest := by
      rw [hrx, hqx, hx]
      simp
    refine hr.exit hrest rfl fun v hv hvx => ?_
    have hv' : v.contexts = Function.update (Function.update (fun _ => none) (t + 1) (some .rest)) (t + 2)
        (some (.start (n - 1))) := by
      funext u
      rw [hvx, hrx, hqx, hx]
      by_cases h0 : u = t
      · simp [h0]
      · by_cases h1 : u = t + 1
        · simp [h1]
        · simp [Function.update_apply, h0, h1]
    have hend : Ends mode count v _ := yields_end h1 k (by omega) hv hv'
    simpa [yieldLines] using hend

/-! ### Runs with joins -/

/-- The thread `k` runs, and those in front of it are blocked, each on its only child. -/
structure Stack (s : State) (k : ℕ) : Prop where
  current : s.currentThread = some k
  ready : s.readyQueue = []
  blocked : s.blockedQueue = List.range k
  root : (s.threads 0).parent = none
  parent : ∀ i < k, (s.threads (i + 1)).parent = some i
  children : ∀ i < k, (s.threads i).children = [i + 1]
  top : (s.threads k).children = []

section Stack

variable {s : State} {k : ℕ}

/-- The fields of the threads when `k` has made `k + 1`. -/
def withChild (s : State) (k : ℕ) : Tid → Thread :=
  Function.update (Function.update s.threads (k + 1) ⟨some k, [], none⟩) k { s.threads k with children := [k + 1] }

/-- The running thread makes one. -/
theorem Stack.create (h : Stack s k) (hmade : s.made = k + 1) :
    (myThreadCreate s k).2.threads = withChild s k ∧ (myThreadCreate s k).2.readyQueue = [k + 1] := by
  refine ⟨?_, ?_⟩
  · simp [withChild, myThreadCreate, makeThread, State.modify, makeQueue, enqueue, hmade, h.top]
  · simp [myThreadCreate, makeThread, State.modify, enqueue, hmade, h.ready]

/-- The running thread joins the thread it made. -/
theorem Stack.join (h : Stack s k) (hmade : s.made = k + 1) :
    (myThreadJoin (myThreadCreate s k).2 k (k + 1)).2 = { s with
      threads := Function.update (withChild s k) k ⟨(s.threads k).parent, [k + 1], some (k + 1)⟩
      made := k + 2
      readyQueue := []
      blockedQueue := List.range (k + 1)
      currentThread := some (k + 1) } := by
  obtain ⟨hthreads, hready⟩ := h.create hmade
  have hchild : contains ((myThreadCreate s k).2.threads k).children (k + 1) = true := by
    simp [hthreads, withChild]
  have hblocked : (myThreadCreate s k).2.blockedQueue = List.range k := h.blocked
  have hcount : (myThreadCreate s k).2.made = k + 2 := congrArg (· + 1) hmade
  have hsems : (myThreadCreate s k).2.sems = s.sems := rfl
  have hsemsMade : (myThreadCreate s k).2.semsMade = s.semsMade := rfl
  have hself : withChild s k k = { s.threads k with children := [k + 1] } := Function.update_self ..
  have hnew : withChild s k (k + 1) = ⟨some k, [], none⟩ := by
    simp [withChild]
  have hkeep : Function.update (withChild s k) (k + 1) ⟨some k, [], none⟩ = withChild s k :=
    hnew ▸ Function.update_eq_self (k + 1) (withChild s k)
  rw [myThreadJoin, if_neg (not_not.mpr hchild)]
  simp [getNextThread, State.modify, dequeue, enqueue, List.range_succ, hthreads, hready, hblocked, hcount, hsems,
    hsemsMade, hself, hnew, hkeep]

/-- **Making a thread and joining it** puts it on top. -/
theorem Stack.push (h : Stack s k) (hmade : s.made = k + 1) :
    Stack (myThreadJoin (myThreadCreate s k).2 k (k + 1)).2 (k + 1) ∧
      (myThreadJoin (myThreadCreate s k).2 k (k + 1)).2.made = k + 2 := by
  rw [h.join hmade]
  refine ⟨⟨rfl, rfl, rfl, ?_, fun i hi => ?_, fun i hi => ?_, ?_⟩, rfl⟩
  · by_cases hk : k = 0
    · subst hk
      simpa using h.root
    · simpa [withChild, Function.update_apply, Ne.symm hk] using h.root
  · rcases Nat.lt_succ_iff_lt_or_eq.mp hi with hi | rfl
    · have hparent := h.parent i hi
      by_cases hik : i + 1 = k
      · subst hik
        simpa using hparent
      · simpa [withChild, Function.update_apply, hik, hi.ne] using hparent
    · simp [withChild]
  · rcases Nat.lt_succ_iff_lt_or_eq.mp hi with hi | rfl
    · simpa [withChild, Function.update_apply, hi.ne, (Nat.lt_succ_of_lt hi).ne] using h.children i hi
    · simp
  · simp [withChild]

theorem removeNode_range (k : ℕ) : removeNode (List.range (k + 1)) k = List.range k := by
  have hall : ∀ i ∈ List.range k, (i != k) = true := by
    intro i hi
    simpa using (List.mem_range.mp hi).ne
  rw [removeNode, List.range_succ, List.filter_append, List.filter_eq_self.mpr hall]
  simp

/-- **The thread exits**, and the one that joined it runs. -/
theorem Stack.pop (h : Stack s (k + 1)) : Stack (myThreadExit s (k + 1)) k := by
  have hparent := h.parent k (Nat.lt_succ_self k)
  have hleave : leaveParent s (k + 1) = s.modify k fun x => { x with children := [] } := by
    simp [leaveParent, hparent, State.modify, h.children k (Nat.lt_succ_self k), removeNode]
  have hexit : myThreadExit s (k + 1) = { s with
      threads := Function.update s.threads k { s.threads k with children := [], waitingFor := none }
      blockedQueue := List.range k
      readyQueue := []
      currentThread := some k } := by
    have hblocked : contains s.blockedQueue k = true := by
      rw [h.blocked]
      simp
    have hstill : ((s.modify k fun x => { x with children := [] }).threads (k + 1)).parent = some k := by
      simpa [State.modify] using hparent
    have hempty : isEmpty ((s.modify k fun x => { x with children := [] }).threads k).children = true := by
      simp [State.modify]
    have hsame : (s.modify k fun x => { x with children := [] }).blockedQueue = s.blockedQueue := rfl
    rw [myThreadExit, hleave, wakeParent, hstill]
    dsimp only
    rw [hsame, hblocked, hempty, if_pos rfl, Bool.true_or, if_pos rfl]
    simp [getNextThread, State.modify, h.ready, h.blocked, enqueue, dequeue, removeNode_range]
  rw [hexit]
  refine ⟨rfl, rfl, rfl, ?_, ?_, ?_, ?_⟩
  · by_cases hk : k = 0
    · subst hk
      simpa using h.root
    · simpa [Function.update_apply, Ne.symm hk] using h.root
  · intro i hi
    have hp := h.parent i (by omega)
    by_cases hik : i + 1 = k
    · subst hik
      simpa using hp
    · simpa [Function.update_apply, hik] using hp
  · intro i hi
    simpa [Function.update_apply, hi.ne] using h.children i (by omega)
  · simp

theorem Stack.empty (h : Stack s 0) : (myThreadExit s 0).currentThread = none ∧ (myThreadExit s 0).readyQueue = [] ∧
    (myThreadExit s 0).blockedQueue = [] := by
  obtain ⟨hcur, hready, hblocked, -⟩ := exit_calm h.blocked 0
  rw [h.ready] at hcur hready
  exact ⟨hcur, hready, hblocked⟩

/-- The thread `k` is at `x`, and those in front of it wait to go on behind their joins. -/
structure Chain (p : Proc) (k : ℕ) (x : Point) (out : List Line) : Prop where
  stack : Stack p.lib k
  contexts : ∀ i, p.contexts i = if i < k then some .rest else if i = k then some x else none
  memory : p.memory = out

section Chain

variable {mode count : ℤ} {p : Proc} {x : Point} {out out' : List Line}

theorem Chain.exec (h : Chain p k x out) :
    (program mode count).exec p = Program.respond p k (next mode k x out).2 (next mode k x out).1 := by
  have hx : p.contexts k = some x := by rw [h.contexts, if_neg (lt_irrefl k), if_pos rfl]
  rw [Program.exec_at h.stack.current hx, h.memory]
  rfl

/-- It makes a thread and joins it, and the new one starts. -/
theorem Chain.grow {n : ℤ} {d : ℕ} {final : List Line} (h : Chain p d (.start n) out) (h2 : mode = 2)
    (hmade : p.lib.made = d + 1) (hn : 0 < n)
    (hrest : ∀ q, Chain q (d + 1) (.start (n - 1)) (out ++ [.start n, .create]) → q.lib.made = d + 2 →
      Ends mode count q final) : Ends mode count p final := by
  let q : Proc := ⟨(myThreadCreate p.lib d).2, Function.update (Function.update p.contexts d (some (.made (d + 1))))
    (d + 1) (some (.start (n - 1))), out ++ [.start n, .create]⟩
  have hcreate : (program mode count).lts.step p ⟨d, .create⟩ q := by
    refine h.exec.trans ?_
    rw [next_start_pos hn]
    simp only [q, ← hmade]
    rfl
  have hat : q.contexts d = some (.made (d + 1)) := by
    simp [q]
  have hcur : q.lib.currentThread = some d := h.stack.current
  have hjoin : (program mode count).lts.step q ⟨d, .join (d + 1)⟩ ⟨(myThreadJoin q.lib d (d + 1)).2,
      Function.update q.contexts d (some .rest), q.memory⟩ := by
    refine (Program.exec_at hcur hat).trans ?_
    have hnext : (program mode count).next d (.made (d + 1)) q.memory = (.join (d + 1) fun _ => .rest, q.memory) :=
      next_made_join (c := d) h2
    rw [hnext]
    rfl
  obtain ⟨hstack, hmade'⟩ := h.stack.push hmade
  refine .step hcreate (.step hjoin (hrest _ ⟨hstack, fun i => ?_, rfl⟩ hmade'))
  rcases lt_trichotomy i d with hlt | rfl | hgt
  · simp [q, h.contexts, hlt, hlt.ne, (Nat.lt_succ_of_lt hlt), (Nat.lt_succ_of_lt hlt).ne]
  · simp [q]
  · by_cases hi : i = d + 1
    · simp [q, hi]
    · simp [q, h.contexts, hi, hgt.ne', Nat.not_lt.mpr hgt.le, Nat.not_lt.mpr hgt]

/-- **The threads end in the reverse order.** -/
theorem chain_up : ∀ {k : ℕ} {p : Proc} {x : Point} {out out' : List Line}, Chain p k x out →
    next mode k x out = (.exit, out') → Ends mode count p (out' ++ List.replicate k .ended)
  | 0, p, x, out, out', h, hnext => by
    obtain ⟨hcur, hready, hblocked⟩ := h.stack.empty
    rw [List.replicate_zero, List.append_nil]
    refine .done (h.exec.trans (by rw [hnext]; rfl)) ⟨hcur, hready, hblocked, ?_, rfl⟩
    funext i
    show Function.update p.contexts 0 none i = none
    by_cases hi : i = 0
    · simp [hi]
    · simp [hi, h.contexts]
  | k + 1, p, x, out, out', h, hnext => by
    refine .step (h.exec.trans (by rw [hnext]; rfl)) ?_
    have hchain : Chain ⟨myThreadExit p.lib (k + 1), Function.update p.contexts (k + 1) none, out'⟩ k .rest out' := by
      refine ⟨h.stack.pop, fun i => ?_, rfl⟩
      show Function.update p.contexts (k + 1) none i = _
      by_cases hi : i = k + 1
      · subst hi
        rw [Function.update_self, if_neg (Nat.not_succ_lt_self), if_neg (Nat.succ_ne_self k)]
      · rw [Function.update_of_ne hi, h.contexts, if_neg hi]
        rcases lt_trichotomy i k with hlt | rfl | hgt
        · rw [if_pos (Nat.lt_succ_of_lt hlt), if_pos hlt]
        · rw [if_pos (Nat.lt_succ_self i), if_neg (lt_irrefl i), if_pos rfl]
        · rw [if_neg (Nat.not_lt.mpr hgt), if_neg (Nat.not_lt.mpr hgt.le), if_neg hgt.ne']
    have hend : Ends mode count _ _ := chain_up hchain (show next mode k .rest out' = (.exit, out' ++ [.ended]) from rfl)
    rwa [List.append_assoc, List.singleton_append, ← List.replicate_succ] at hend

/-- **With joins** each thread ends behind the one it made. -/
theorem chain_ends (h2 : mode = 2) : ∀ (k : ℕ) {n : ℤ} {p : Proc} {d : ℕ} {out : List Line}, n.toNat = k →
    Chain p d (.start n) out → p.lib.made = d + 1 →
    Ends mode count p (out ++ joinLines k n ++ List.replicate d .ended)
  | 0, n, p, d, out, hn, h, _ => by
    have hend : Ends mode count p _ := chain_up h (next_start_neg (by omega))
    simpa [joinLines] using hend
  | k + 1, n, p, d, out, hn, h, hmade => by
    refine h.grow h2 hmade (by omega) fun q hq hqmade => ?_
    have hend : Ends mode count q _ := chain_ends h2 k (by omega) hq hqmade
    simpa [joinLines, List.replicate_succ] using hend

end Chain

end Stack

/-! ### The output -/

/-- **What `passing.c` prints.** For every count and mode the run that `MyThreadInit` starts
comes to an end, with every thread exited and none ready or blocked, and the lines of that
mode printed. There is no other run. -/
theorem passing_prints (mode count : ℤ) : ∃ tr p, (program mode count).lts.Run (program mode count).init tr p ∧
    Done p (lines mode count) ∧
    ∀ tr' p', (program mode count).lts.Run (program mode count).init tr' p' → tr' <+: tr := by
  suffices hend : Ends mode count (program mode count).init (lines mode count) by
    obtain ⟨tr, p, hr, hdone⟩ := hend
    exact ⟨tr, p, hr, hdone, fun _ _ h' => Program.run_covers hr (Program.stuck_of_halted hdone.current) h'⟩
  have hinit : (program mode count).init.contexts = Function.update (fun _ => none) 0 (some (.start count)) := rfl
  have hcalm : Calm (program mode count).init 1 0 [] [] := ⟨rfl, rfl, rfl, rfl, rfl⟩
  rw [lines]
  split_ifs with h1 hpos h2
  · refine hcalm.create rfl (next_start_pos hpos) fun q hq hqx => ?_
    have hat : q.contexts 0 = some (.made 1) := by
      rw [hqx]
      rfl
    refine hq.yield hat (next_made_yield h1) fun r hr hrx => yields_end h1 _ rfl hr ?_
    rw [hrx, hqx, hinit, Function.update_idem, Function.update_comm Nat.zero_ne_one.symm, Function.update_idem]
  · exact hcalm.last hinit (next_start_neg (not_lt.mp hpos))
  · have hstack : Stack myThreadInit 0 :=
      ⟨rfl, rfl, rfl, rfl, fun i hi => absurd hi (Nat.not_lt_zero i), fun i hi => absurd hi (Nat.not_lt_zero i), rfl⟩
    have hchain : Chain (program mode count).init 0 (.start count) [] := by
      refine ⟨hstack, fun i => ?_, rfl⟩
      rw [hinit, Function.update_apply, if_neg (Nat.not_lt_zero i)]
    simpa using chain_ends h2 _ rfl hchain rfl
  · simpa using calm_ends h1 h2 _ rfl hcalm hinit

-- `tests/passing-2-1.output`
example : lines 1 2 = [.start 2, .create, .start 1, .create, .ended, .start 0, .ended, .ended] := by decide

end Passing
end Threads
end Csc501

/-
# Programs that use the library

A program is what each thread does between two calls: its code from a point in
its body to the next call, on the memory that the threads share. `makecontext`
puts a thread at the start of its body, `swapcontext` back where it left off,
so the library and the points the threads are at make up the whole process.

A process has at most one next step. What it does, any program may do
(`Program.exec_programs`), so all that holds of the library holds of it.

Key definitions: `Request`, `Program`, `Image`, `Program.exec`, `Program.lts`.
Key theorems: `Program.exec_at`, `Program.exec_cases`, `Program.exec_programs`, `Program.run_covers`.
-/
import Csc501.Lib.Countdown
import Csc501.Threads.JoinResult

namespace Csc501
namespace Threads

open Lib

/-- The next call of a thread, and where it goes on after it. `κ` are the points in the
bodies of the threads. -/
inductive Request (κ : Type)
  | create (start : κ) (next : Tid → κ)
  | yield (next : κ)
  | join (t : Tid) (next : ℤ → κ)
  | joinAll (next : κ)
  | exit
  | semInit (initialValue : ℤ) (next : Option Sid → κ)
  | semSignal (m : Sid) (next : κ)
  | semWait (m : Sid) (next : κ)
  | semDestroy (m : Sid) (next : ℤ → κ)

/-- A program: where `MyThreadInit` starts it, in which memory, and what a thread does up
to its next call. -/
structure Program (κ μ : Type) where
  start : κ
  memory : μ
  next : Tid → κ → μ → Request κ × μ

/-- A process: the library, the points the threads are at, and the memory. A thread that
is not made yet or has exited is at none. -/
structure Image (κ μ : Type) where
  lib : State
  contexts : Tid → Option κ
  memory : μ

variable {κ μ : Type}

namespace Program

variable (P : Program κ μ)

/-- `MyThreadInit`. -/
def init : Image κ μ := ⟨myThreadInit, Function.update (fun _ => none) 0 (some P.start), P.memory⟩

/-- The call of thread `c`, which goes on in the memory `mem`. -/
def respond (p : Image κ μ) (c : Tid) (mem : μ) : Request κ → Option (Event × Image κ μ)
  | .create start next =>
    let (thread, s) := myThreadCreate p.lib c
    let contexts := Function.update p.contexts c (some (next thread))
    some (⟨c, .create⟩, ⟨s, Function.update contexts thread (some start), mem⟩)
  | .yield next => some (⟨c, .yield⟩, ⟨myThreadYield p.lib c, Function.update p.contexts c (some next), mem⟩)
  | .join t next =>
    let (result, s) := myThreadJoin p.lib c t
    some (⟨c, .join t⟩, ⟨s, Function.update p.contexts c (some (next result)), mem⟩)
  | .joinAll next => some (⟨c, .joinAll⟩, ⟨myThreadJoinAll p.lib c, Function.update p.contexts c (some next), mem⟩)
  | .exit => some (⟨c, .exit⟩, ⟨myThreadExit p.lib c, Function.update p.contexts c none, mem⟩)
  | .semInit v next =>
    let (sem, s) := mySemaphoreInit p.lib v
    some (⟨c, .semInit v⟩, ⟨s, Function.update p.contexts c (some (next sem)), mem⟩)
  | .semSignal m next => do
    let s ← mySemaphoreSignal p.lib m
    some (⟨c, .semSignal m⟩, ⟨s, Function.update p.contexts c (some next), mem⟩)
  | .semWait m next => do
    let s ← mySemaphoreWait p.lib c m
    some (⟨c, .semWait m⟩, ⟨s, Function.update p.contexts c (some next), mem⟩)
  | .semDestroy m next => do
    let (result, s) ← mySemaphoreDestroy p.lib m
    some (⟨c, .semDestroy m⟩, ⟨s, Function.update p.contexts c (some (next result)), mem⟩)

/-- The running thread goes on to its next call. -/
def exec (p : Image κ μ) : Option (Event × Image κ μ) := do
  let c ← p.lib.currentThread
  let x ← p.contexts c
  let (request, mem) := P.next c x p.memory
  respond p c mem request

def lts : Lts (Image κ μ) Event where
  init p := p = P.init
  step p e p' := P.exec p = some (e, p')

variable {P}

theorem exec_at {p : Image κ μ} {c : Tid} {x : κ} (hcur : p.lib.currentThread = some c) (hx : p.contexts c = some x) :
    P.exec p = respond p c (P.next c x p.memory).2 (P.next c x p.memory).1 := by
  simp only [exec, hcur, hx, Option.bind_eq_bind, Option.bind_some]

/-- Who steps, and from where. -/
theorem exec_cases {p p' : Image κ μ} {e : Event} (h : P.exec p = some (e, p')) :
    ∃ c x, p.lib.currentThread = some c ∧ p.contexts c = some x ∧
      respond p c (P.next c x p.memory).2 (P.next c x p.memory).1 = some (e, p') := by
  obtain ⟨c, hcur, h'⟩ := Option.bind_eq_some_iff.mp h
  obtain ⟨x, hx, -⟩ := Option.bind_eq_some_iff.mp h'
  exact ⟨c, x, hcur, hx, (exec_at hcur hx).symm.trans h⟩

/-- A step of a program is a call of the library. -/
theorem exec_programs {p p' : Image κ μ} {e : Event} (h : P.exec p = some (e, p')) :
    programs.step p.lib e p'.lib := by
  obtain ⟨c, x, hcur, -, h⟩ := exec_cases h
  cases hreq : (P.next c x p.memory).1 with
  | semSignal m next =>
    rw [hreq] at h
    obtain ⟨s, hs, h⟩ := Option.bind_eq_some_iff.mp h
    obtain ⟨rfl, rfl⟩ := Prod.mk.inj (Option.some.inj h)
    exact ⟨hcur, hs⟩
  | semWait m next =>
    rw [hreq] at h
    obtain ⟨s, hs, h⟩ := Option.bind_eq_some_iff.mp h
    obtain ⟨rfl, rfl⟩ := Prod.mk.inj (Option.some.inj h)
    exact ⟨hcur, hs⟩
  | semDestroy m next =>
    rw [hreq] at h
    obtain ⟨⟨r, s⟩, hs, h⟩ := Option.bind_eq_some_iff.mp h
    obtain ⟨rfl, rfl⟩ := Prod.mk.inj (Option.some.inj h)
    refine ⟨hcur, ?_⟩
    show (mySemaphoreDestroy p.lib m).map Prod.snd = some s
    rw [hs]
    rfl
  | _ =>
    rw [hreq] at h
    obtain ⟨rfl, rfl⟩ := Prod.mk.inj (Option.some.inj h)
    exact ⟨hcur, rfl⟩

theorem run_programs {p : Image κ μ} {tr : List (Trans (Image κ μ) Event)} (h : P.lts.Run P.init tr p) :
    ∃ tr', programs.Run myThreadInit tr' p.lib ∧ labels tr' = labels tr := by
  induction h with
  | nil => exact ⟨[], .nil _, rfl⟩
  | snoc _ hst ih =>
    obtain ⟨tr', hr, hlab⟩ := ih
    exact ⟨_, hr.snoc (exec_programs hst), by simp [hlab]⟩

/-- Once `MyThreadInit` has returned nothing runs. -/
theorem stuck_of_halted {p : Image κ μ} (h : p.lib.currentThread = none) : P.lts.Stuck p := by
  intro e p' hst
  obtain ⟨c, x, hcur, -⟩ := exec_cases hst
  rw [h] at hcur
  cases hcur

/-- A run that has come to its end has all others in it. -/
theorem run_covers {p q : Image κ μ} {tr tr' : List (Trans (Image κ μ) Event)} (h : P.lts.Run P.init tr p)
    (hend : P.lts.Stuck p) (h' : P.lts.Run P.init tr' q) : tr' <+: tr := by
  refine h.covers hend ?_ h'
  intro s e t e' t' h1 h2
  exact Prod.mk.inj (Option.some.inj (h1.symm.trans h2))

end Program

end Threads
end Csc501

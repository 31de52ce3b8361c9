/-
# Fibonacci by threads

`tests/fib.c`: a thread on the number `n` makes one thread for `n - 1` and one
for `n - 2`, waits for both and adds what they left behind. The parameter is a
pointer to where the number is and the result goes to: the variable `n` of
`main`, or `n1` and `n2` in the frame of the parent.

Each call uses up one of the calls that are left, whichever thread the library
lets run. While a thread is blocked one of its children is alive, so the
library does not run dry before all threads have exited; and a thread that goes
on behind `MyThreadJoinAll` has no child left, so both its variables hold
results. `main` lets no number above 10 pass, so none of the values leaves the range
of an `int`, which is unbounded here. The number is what `atoi` makes of the argument.

Key definitions: `Cell`, `Point`, `next`, `program`, `main`, `calls`, `FibInv`.
Key theorems: `Plain.all_exited`, `fibInv_step`, `fib_countdown`, `program_runs`, `fib_runs`.
-/
import Csc501.Threads.Program
import Mathlib.Data.Nat.Fib.Basic

namespace Csc501
namespace Threads
namespace Fib

open Lib

/-- Where a parameter points to: the variable of `main`, or one in the frame of a thread. -/
inductive Cell
  | n
  | n1 (t : Tid)
  | n2 (t : Tid)
  deriving DecidableEq

/-- The points of the body at which a thread makes a call: before its first child, before its second, before
`MyThreadJoinAll`, and behind it. -/
inductive Point
  | start (arg : Cell)
  | first (arg : Cell)
  | second (arg : Cell)
  | joined (arg : Cell)

/-- The body of `fib`, from one call to the next. -/
def next (c : Tid) : Point → (Cell → ℤ) → Request Point × (Cell → ℤ)
  | .start arg, mem =>
    if mem arg = 0 then (.exit, mem)
    else if mem arg = 1 then (.exit, mem)
    else
      let mem := Function.update mem (.n1 c) (mem arg - 1)
      let mem := Function.update mem (.n2 c) (mem arg - 2)
      (.create (.start (.n1 c)) fun _ => .first arg, mem)
  | .first arg, mem => (.create (.start (.n2 c)) fun _ => .second arg, mem)
  | .second arg, mem => (.joinAll (.joined arg), mem)
  | .joined arg, mem => (.exit, Function.update mem arg (mem (.n1 c) + mem (.n2 c)))

/-- `MyThreadInit(fib, (void*)&n)`. -/
def program (n : ℤ) : Program Point (Cell → ℤ) := ⟨.start .n, Function.update (fun _ => 0) .n n, next⟩

/-- What `main` prints in front of the run, and the program it runs on the library: none,
if the number does not pass its check. -/
def main (n : ℤ) : String × Option (Program Point (Cell → ℤ)) :=
  if n < 0 ∨ n > 10 then ("invalid value for n (" ++ toString n ++ ")\n", none)
  else ("fib(" ++ toString n ++ ") = ", some (program n))

/-- What it prints when `MyThreadInit` has returned. -/
def printed (mem : Cell → ℤ) : String := toString (mem .n) ++ "\n"

abbrev Proc := Image Point (Cell → ℤ)

/-- The calls a thread on `n` makes, together with its descendants. -/
def calls : ℕ → ℕ
  | 0 => 1
  | 1 => 1
  | n + 2 => calls (n + 1) + calls n + 4

/-- The calls a thread has yet to make, with those of the descendants it has yet to get. -/
def pointCalls (mem : Cell → ℤ) (t : Tid) : Option Point → ℕ
  | none => 0
  | some (.start arg) => calls (mem arg).toNat
  | some (.first _) => 3 + calls (mem (.n2 t)).toNat
  | some (.second _) => 2
  | some (.joined _) => 1

/-- The calls left. -/
def callsLeft (p : Proc) : ℕ := ((List.range p.lib.made).map fun t => pointCalls p.memory t (p.contexts t)).sum

theorem calls_of_two_le {n : ℕ} (h : 2 ≤ n) : calls n = calls (n - 1) + calls (n - 2) + 4 := by
  obtain ⟨m, rfl⟩ := Nat.exists_eq_add_of_le' h
  rfl

theorem calls_eq : ∀ n, calls n + 4 = 5 * Nat.fib (n + 1)
  | 0 => rfl
  | 1 => rfl
  | n + 2 => by
    have h1 := calls_eq n
    have h2 : calls (n + 1) + 4 = 5 * Nat.fib (n + 2) := calls_eq (n + 1)
    have h3 : Nat.fib (n + 3) = Nat.fib (n + 1) + Nat.fib (n + 2) := Nat.fib_add_two
    show calls (n + 1) + calls n + 4 + 4 = 5 * Nat.fib (n + 3)
    omega

/-! ### The invariant -/

/-- What each thread was started on: where its number is, and the number. -/
structure Ghost where
  cell : Tid → Cell
  arg : Tid → ℕ

section Stages

variable (creator : Tid → Option Tid) (made : ℕ) (γ : Ghost) (mem : Cell → ℤ) (t : Tid)

/-- The thread `t` has a child on the number `a` in the cell `k`. -/
def Child (k : Cell) (a : ℕ) : Prop := ∃ u < made, γ.cell u = k ∧ γ.arg u = a ∧ creator u = some t

/-- What is known of a thread that has not exited. -/
def Stage : Point → Prop
  | .start q => q = γ.cell t ∧ mem q = γ.arg t ∧ ∀ u < made, γ.cell u ≠ .n1 t ∧ γ.cell u ≠ .n2 t
  | .first q => q = γ.cell t ∧ 2 ≤ γ.arg t ∧ mem (.n2 t) = γ.arg t - 2 ∧ Child creator made γ t (.n1 t) (γ.arg t - 1) ∧
      ∀ u < made, γ.cell u ≠ .n2 t
  | .second q | .joined q => q = γ.cell t ∧ 2 ≤ γ.arg t ∧ Child creator made γ t (.n1 t) (γ.arg t - 1) ∧
      Child creator made γ t (.n2 t) (γ.arg t - 2)

end Stages

/-- The library, under a program that only makes threads, waits for all its children and exits. -/
structure Plain (tr : Trace) (s : State) : Prop where
  run : lib.Run myThreadInit tr s
  neverWaits : NeverBlocks tr
  neverJoins : ∀ t, (s.threads t).waitingFor = none

/-- All values are numbers that threads are started on, or results. -/
def Fits (n : ℕ) (mem : Cell → ℤ) : Prop := ∀ k, 0 ≤ mem k ∧ mem k ≤ max n (Nat.fib n)

theorem Fits.update {n : ℕ} {mem : Cell → ℤ} (h : Fits n mem) (k : Cell) {x : ℤ} (h0 : 0 ≤ x)
    (hx : x ≤ max n (Nat.fib n)) : Fits n (Function.update mem k x) := by
  intro k'
  by_cases hk : k' = k
  · rw [hk, Function.update_self]
    exact ⟨h0, hx⟩
  · rw [Function.update_of_ne hk]
    exact h k'

/-- The invariant of the program. -/
structure FibInv (n : ℕ) (tr : Trace) (p : Proc) (γ : Ghost) : Prop where
  plain : Plain tr p.lib
  main : γ.cell 0 = .n ∧ γ.arg 0 = n
  inj : ∀ t < p.lib.made, ∀ u < p.lib.made, γ.cell t = γ.cell u → t = u
  unborn : ∀ u < p.lib.made, ∀ t, p.lib.made ≤ t → γ.cell u ≠ .n1 t ∧ γ.cell u ≠ .n2 t
  body : ∀ t < p.lib.made, ¬ exited tr t →
    ∃ x, p.contexts t = some x ∧ Stage (creator tr) p.lib.made γ p.memory t x
  gone : ∀ t, exited tr t → p.contexts t = none ∧ p.memory (γ.cell t) = Nat.fib (γ.arg t)
  woken : ∀ t q, p.contexts t = some (.joined q) → t ∉ p.lib.blockedQueue → (p.lib.threads t).children = []
  bound : ∀ u < p.lib.made, γ.arg u ≤ n
  fits : Fits n p.memory

section Facts

variable {n : ℕ} {tr : Trace} {p : Proc} {γ : Ghost} {s s' : State} {e : Event}

theorem Child.mono {cr cr' : Tid → Option Tid} {made made' : ℕ} {γ' : Ghost} {t : Tid} {k : Cell} {a : ℕ}
    (h : Child cr made γ t k a) (hle : made ≤ made') (hcr : ∀ u < made, cr' u = cr u)
    (hγ : ∀ u < made, γ'.cell u = γ.cell u ∧ γ'.arg u = γ.arg u) : Child cr' made' γ' t k a := by
  obtain ⟨u, hu, h1, h2, h3⟩ := h
  exact ⟨u, by omega, by rw [(hγ u hu).1, h1], by rw [(hγ u hu).2, h2], by rw [hcr u hu, h3]⟩

/-- A step of others is nothing to a thread. -/
theorem Stage.mono {cr cr' : Tid → Option Tid} {made made' : ℕ} {γ' : Ghost} {mem mem' : Cell → ℤ} {t : Tid} {x : Point}
    (h : Stage cr made γ mem t x) (ht : t < made) (hle : made ≤ made') (hcr : ∀ u < made, cr' u = cr u)
    (hγ : ∀ u < made, γ'.cell u = γ.cell u ∧ γ'.arg u = γ.arg u)
    (hnew : ∀ u < made', made ≤ u → γ'.cell u ≠ .n1 t ∧ γ'.cell u ≠ .n2 t)
    (hcell : mem' (γ.cell t) = mem (γ.cell t))
    (hn2 : (∀ u < made, γ.cell u ≠ .n2 t) → mem' (.n2 t) = mem (.n2 t)) : Stage cr' made' γ' mem' t x := by
  obtain ⟨hc, ha⟩ := hγ t ht
  cases x with
  | start q =>
    obtain ⟨rfl, hmem, hfree⟩ := h
    refine ⟨hc.symm, by rw [hcell, hmem, ha], fun u hu => ?_⟩
    by_cases hu' : u < made
    · rw [(hγ u hu').1]
      exact hfree u hu'
    · exact hnew u hu (by omega)
  | first q =>
    obtain ⟨rfl, htwo, hmem, hchild, hfree⟩ := h
    refine ⟨hc.symm, ha ▸ htwo, by rw [hn2 hfree, hmem, ha], ha ▸ hchild.mono hle hcr hγ, fun u hu => ?_⟩
    by_cases hu' : u < made
    · rw [(hγ u hu').1]
      exact hfree u hu'
    · exact (hnew u hu (by omega)).2
  | second q =>
    obtain ⟨rfl, htwo, h1, h2⟩ := h
    exact ⟨hc.symm, ha ▸ htwo, ha ▸ h1.mono hle hcr hγ, ha ▸ h2.mono hle hcr hγ⟩
  | joined q =>
    obtain ⟨rfl, htwo, h1, h2⟩ := h
    exact ⟨hc.symm, ha ▸ htwo, ha ▸ h1.mono hle hcr hγ, ha ▸ h2.mono hle hcr hγ⟩

/-- Nor does it change what a thread has yet to call. -/
theorem Stage.pointCalls {cr : Tid → Option Tid} {made : ℕ} {mem mem' : Cell → ℤ} {t : Tid} {x : Point}
    (h : Stage cr made γ mem t x) (hcell : mem' (γ.cell t) = mem (γ.cell t))
    (hn2 : (∀ u < made, γ.cell u ≠ .n2 t) → mem' (.n2 t) = mem (.n2 t)) :
    pointCalls mem' t (some x) = pointCalls mem t (some x) := by
  cases x with
  | start q =>
    obtain ⟨rfl, -, -⟩ := h
    simp only [Fib.pointCalls, hcell]
  | first q => simp only [Fib.pointCalls, hn2 h.2.2.2.2]
  | second q => rfl
  | joined q => rfl

theorem Plain.inv (h : Plain tr s) : Inv tr s := inv_run h.run

theorem Plain.step (h : Plain tr s) (hst : lib.step s e s') (hw : ∀ m, e.call ≠ .semWait m)
    (hj : ∀ t, e.call ≠ .join t) : Plain (tr ++ [⟨s, e, s'⟩]) s' := by
  obtain ⟨hcur, he⟩ := step_effect h.inv hst
  refine ⟨h.run.snoc hst, fun x hx m hm => ?_, fun t => ?_⟩
  · rcases List.mem_append.mp hx with hx | hx
    · exact h.neverWaits x hx m hm
    · obtain rfl := List.mem_singleton.mp hx
      exact absurd hm (hw m)
  · cases ht : (s'.threads t).waitingFor with
    | none => rfl
    | some u =>
      rcases he.waitingFor h.inv hcur ht with ⟨-, hcall, -⟩ | ⟨hold, -⟩
      · exact absurd hcall (hj u)
      · rw [h.neverJoins t] at hold
        cases hold

/-- When nobody runs, everybody has exited. -/
theorem Plain.all_exited (h : Plain tr s) (hend : s.currentThread = none) {t : ℕ} (ht : t < s.made) : exited tr t := by
  by_contra hx
  have hc : created tr t := Nat.le_of_lt_succ (lt_of_lt_of_eq ht h.inv.made)
  have hnone := waitQueue_of_neverBlocks h.run h.neverWaits
  rcases halted_cases h.run hend hc hx with hb | ⟨m, hm⟩
  · obtain ⟨d, m, -, hd⟩ := blocked_descends h.run hend _ t le_rfl hb
    rw [hnone] at hd
    cases hd
  · rw [hnone] at hm
    cases hm

/-- A thread that is not blocked any more has no children left. -/
theorem Plain.woken (h : Plain tr s) (hst : lib.step s e s') {t : Tid} (hcreate : e.call ≠ .create)
    (ht : t ∉ s.blockedQueue → (s.threads t).children = []) (hb : t ∉ s'.blockedQueue) :
    (s'.threads t).children = [] := by
  obtain ⟨hcur, he⟩ := step_effect h.inv hst
  rw [he.children h.inv hcur, if_neg hcreate]
  by_cases hold : t ∈ s.blockedQueue
  · obtain ⟨hexit, -, hnil | hw⟩ := (he.leaves_blocked hold).mp hb
    · rw [if_pos hexit, hnil]
    · rw [h.neverJoins t] at hw
      cases hw
  · rw [ht hold]
    split_ifs <;> rfl

/-- The threads other than `c` have as much to call as before. -/
theorem FibInv.others (h : FibInv n tr p γ) {c : Tid} {mem : Cell → ℤ}
    (hcell : ∀ u < p.lib.made, u ≠ c → mem (γ.cell u) = p.memory (γ.cell u))
    (hn2 : ∀ t, t ≠ c → (∀ u < p.lib.made, γ.cell u ≠ .n2 t) → mem (.n2 t) = p.memory (.n2 t)) (t : Tid)
    (ht : t < p.lib.made) (htc : t ≠ c) : pointCalls mem t (p.contexts t) = pointCalls p.memory t (p.contexts t) := by
  by_cases hx : exited tr t
  · rw [(h.gone t hx).1]
    rfl
  · obtain ⟨x, hctx, hs⟩ := h.body t ht hx
    rw [hctx]
    exact hs.pointCalls (hcell t ht htc) (hn2 t htc)

/-- The calls left, when the thread `c` goes on. -/
theorem callsLeft_move (h : FibInv n tr p γ) {c : Tid} (hc : c < p.lib.made) {f : Tid → Option Point} {mem : Cell → ℤ}
    (hmade : s.made = p.lib.made) (hf : ∀ t < p.lib.made, t ≠ c → f t = p.contexts t)
    (hcell : ∀ u < p.lib.made, u ≠ c → mem (γ.cell u) = p.memory (γ.cell u))
    (hn2 : ∀ t, t ≠ c → (∀ u < p.lib.made, γ.cell u ≠ .n2 t) → mem (.n2 t) = p.memory (.n2 t)) :
    callsLeft ⟨s, f, mem⟩ + pointCalls p.memory c (p.contexts c) = callsLeft p + pointCalls mem c (f c) := by
  unfold callsLeft
  dsimp only
  rw [hmade]
  apply sum_map_set List.nodup_range (List.mem_range.mpr hc)
  intro t ht htc
  have ht' := List.mem_range.mp ht
  rw [hf t ht' htc]
  exact h.others hcell hn2 t ht' htc

/-- The calls left, when it makes a child on the cell `k`. -/
theorem callsLeft_create (h : FibInv n tr p γ) {c : Tid} (hc : c < p.lib.made) {k : Cell} {y : Point} {mem : Cell → ℤ}
    (hmade : s.made = p.lib.made + 1)
    (hcell : ∀ u < p.lib.made, u ≠ c → mem (γ.cell u) = p.memory (γ.cell u))
    (hn2 : ∀ t, t ≠ c → (∀ u < p.lib.made, γ.cell u ≠ .n2 t) → mem (.n2 t) = p.memory (.n2 t))
    (hcount : pointCalls p.memory c (p.contexts c) = pointCalls mem c (some y) + calls (mem k).toNat + 1) :
    callsLeft ⟨s, Function.update (Function.update p.contexts c (some y)) p.lib.made (some (.start k)), mem⟩ + 1 =
      callsLeft p := by
  have hmove := callsLeft_move (s := p.lib) (f := Function.update (Function.update p.contexts c (some y)) p.lib.made
    (some (.start k))) h hc rfl (fun t ht htc => by simp [ht.ne, htc]) hcell hn2
  have hself : Function.update (Function.update p.contexts c (some y)) p.lib.made (some (.start k)) c = some y := by
    simp [hc.ne]
  rw [hself] at hmove
  have hnew : callsLeft ⟨s, Function.update (Function.update p.contexts c (some y)) p.lib.made (some (.start k)), mem⟩ =
      callsLeft ⟨p.lib, Function.update (Function.update p.contexts c (some y)) p.lib.made (some (.start k)), mem⟩ +
        calls (mem k).toNat := by
    unfold callsLeft
    dsimp only
    rw [hmade, List.range_succ, List.map_append, List.sum_append, List.map_singleton, List.sum_singleton,
      Function.update_self]
    rfl
  omega

end Facts

/-! ### One call -/

section Step

variable {n : ℕ} {tr : Trace} {p : Proc} {γ : Ghost} {c : Tid}

/-- The thread `made` is made, on the number `a` in the cell `k`. -/
def Ghost.make (γ : Ghost) (made : ℕ) (k : Cell) (a : ℕ) : Ghost :=
  ⟨Function.update γ.cell made k, Function.update γ.arg made a⟩

theorem Ghost.make_of_lt {made u : ℕ} (hu : u < made) (k : Cell) (a : ℕ) :
    (γ.make made k a).cell u = γ.cell u ∧ (γ.make made k a).arg u = γ.arg u := by
  simp [Ghost.make, Function.update_of_ne hu.ne]

theorem Ghost.make_self (made : ℕ) (k : Cell) (a : ℕ) :
    (γ.make made k a).cell made = k ∧ (γ.make made k a).arg made = a := by
  simp [Ghost.make]

theorem creator_create {s s' : State} (hI : Inv tr s) (u : ℕ) :
    creator (tr ++ [⟨s, ⟨c, .create⟩, s'⟩]) u = if u = s.made then some c else creator tr u := by
  rw [creator_snoc, ← hI.made]
  simp

/-- A child is made on the cell `k` of its parent's frame, from the number `a` there. -/
theorem fibInv_create (h : FibInv n tr p γ) (hcur : p.lib.currentThread = some c) {k : Cell} {a : ℕ} {y : Point}
    {mem : Cell → ℤ} (hk : k = .n1 c ∨ k = .n2 c) (hfresh : ∀ u < p.lib.made, γ.cell u ≠ k)
    (hchild : mem k = a)
    (hcell : ∀ u < p.lib.made, mem (γ.cell u) = p.memory (γ.cell u))
    (hn2 : ∀ u, u ≠ c → mem (.n2 u) = p.memory (.n2 u)) (hy : ∀ q, y ≠ .joined q) (ha : a ≤ n) (hfits : Fits n mem)
    (hstage : Stage (creator (tr ++ [⟨p.lib, ⟨c, .create⟩, (myThreadCreate p.lib c).2⟩])) (p.lib.made + 1)
      (γ.make p.lib.made k a) mem c y) :
    FibInv n (tr ++ [⟨p.lib, ⟨c, .create⟩, (myThreadCreate p.lib c).2⟩])
      ⟨(myThreadCreate p.lib c).2,
        Function.update (Function.update p.contexts c (some y)) p.lib.made (some (.start k)), mem⟩
      (γ.make p.lib.made k a) := by
  have hst : lib.step p.lib ⟨c, .create⟩ (myThreadCreate p.lib c).2 := ⟨hcur, trivial, rfl⟩
  have hI := h.plain.inv
  obtain ⟨-, he⟩ := step_effect hI hst
  obtain ⟨hc, hcx⟩ := hI.running hcur
  have hmade : (myThreadCreate p.lib c).2.made = p.lib.made + 1 := rfl
  have hexit : ∀ u, exited (tr ++ [⟨p.lib, ⟨c, .create⟩, (myThreadCreate p.lib c).2⟩]) u ↔ exited tr u := by
    intro u
    simp
  have hmk : ∀ u < p.lib.made, (γ.make p.lib.made k a).cell u = γ.cell u ∧
      (γ.make p.lib.made k a).arg u = γ.arg u := fun u hu => Ghost.make_of_lt hu k a
  obtain ⟨hself, hself'⟩ := Ghost.make_self (γ := γ) p.lib.made k a
  have hpos : 0 < p.lib.made := by
    have := hI.made
    omega
  refine ⟨h.plain.step hst (by simp) (by simp), ?_, ?_, ?_, ?_, ?_, ?_, ?_, hfits⟩
  · rw [(hmk 0 hpos).1, (hmk 0 hpos).2]
    exact h.main
  · intro t ht u hu heq
    rw [hmade] at ht hu
    rcases Nat.lt_succ_iff_lt_or_eq.mp ht with ht | rfl
    · rcases Nat.lt_succ_iff_lt_or_eq.mp hu with hu | rfl
      · rw [(hmk t ht).1, (hmk u hu).1] at heq
        exact h.inj t ht u hu heq
      · rw [(hmk t ht).1, hself] at heq
        exact absurd heq (hfresh t ht)
    · rcases Nat.lt_succ_iff_lt_or_eq.mp hu with hu | rfl
      · rw [(hmk u hu).1, hself] at heq
        exact absurd heq.symm (hfresh u hu)
      · rfl
  · intro u hu t ht
    rw [hmade] at hu ht
    have hct : c ≠ t := (hc.trans ht).ne
    rcases Nat.lt_succ_iff_lt_or_eq.mp hu with hu | rfl
    · rw [(hmk u hu).1]
      exact h.unborn u hu t ((Nat.le_succ _).trans ht)
    · rw [hself]
      rcases hk with rfl | rfl
      · exact ⟨fun heq => hct (Cell.n1.inj heq), by simp⟩
      · exact ⟨by simp, fun heq => hct (Cell.n2.inj heq)⟩
  · intro t ht hx
    rw [hmade] at ht
    rw [hexit] at hx
    rcases Nat.lt_succ_iff_lt_or_eq.mp ht with ht | rfl
    · by_cases htc : t = c
      · subst htc
        exact ⟨y, by simp [ht.ne], hstage⟩
      · obtain ⟨x, hctx, hx⟩ := h.body t ht hx
        refine ⟨x, by simp [ht.ne, htc, hctx], ?_⟩
        refine hx.mono ht (Nat.le_succ _) (fun u hu => ?_) hmk (fun u hu hge => ?_) (hcell t ht) fun _ => hn2 t htc
        · rw [creator_create hI, if_neg hu.ne]
        · obtain rfl : u = p.lib.made := by
            have : u < p.lib.made + 1 := hu
            omega
          rw [hself]
          rcases hk with rfl | rfl
          · exact ⟨fun heq => htc (Cell.n1.inj heq).symm, by simp⟩
          · exact ⟨by simp, fun heq => htc (Cell.n2.inj heq).symm⟩
    · -- the new thread
      refine ⟨.start k, by simp, hself.symm, hchild.trans (by rw [hself']), fun u hu => ?_⟩
      rw [hmade] at hu
      have hcm : c ≠ p.lib.made := hc.ne
      rcases Nat.lt_succ_iff_lt_or_eq.mp hu with hu | rfl
      · rw [(hmk u hu).1]
        exact h.unborn u hu _ le_rfl
      · rw [hself]
        rcases hk with rfl | rfl
        · exact ⟨fun heq => hcm (Cell.n1.inj heq), by simp⟩
        · exact ⟨by simp, fun heq => hcm (Cell.n2.inj heq)⟩
  · intro t hx
    rw [hexit] at hx
    have ht := hI.exitedMade t hx
    have htc : t ≠ c := fun heq => hcx (heq ▸ hx)
    obtain ⟨h1, h2⟩ := h.gone t hx
    refine ⟨by simp [ht.ne, htc, h1], ?_⟩
    rw [(hmk t ht).1, (hmk t ht).2]
    exact (hcell t ht).trans h2
  · intro t q hctx hb
    have htm : t ≠ p.lib.made := by
      rintro rfl
      simp at hctx
    have htc : t ≠ c := by
      rintro rfl
      have : some y = some (.joined q) := by simpa [htm] using hctx
      exact hy q (Option.some.inj this)
    have hold : p.contexts t = some (.joined q) := by simpa [htm, htc] using hctx
    rw [he.children hI hcur, if_pos rfl, if_neg (Ne.symm htc), List.append_nil]
    exact h.woken t q hold hb
  · intro u hu
    rcases Nat.lt_succ_iff_lt_or_eq.mp hu with hu | rfl
    · rw [(hmk u hu).2]
      exact h.bound u hu
    · rw [hself']
      exact ha

/-- A thread waits for its children, or goes on if they have exited. -/
theorem fibInv_joinAll (h : FibInv n tr p γ) (hcur : p.lib.currentThread = some c) {q : Cell}
    (hctx : p.contexts c = some (.second q)) :
    FibInv n (tr ++ [⟨p.lib, ⟨c, .joinAll⟩, myThreadJoinAll p.lib c⟩])
      ⟨myThreadJoinAll p.lib c, Function.update p.contexts c (some (.joined q)), p.memory⟩ γ := by
  have hst : lib.step p.lib ⟨c, .joinAll⟩ (myThreadJoinAll p.lib c) := ⟨hcur, trivial, rfl⟩
  have hI := h.plain.inv
  obtain ⟨-, he⟩ := step_effect hI hst
  obtain ⟨hc, hcx⟩ := hI.running hcur
  have hmade : (myThreadJoinAll p.lib c).made = p.lib.made := by simpa using he.made
  have hexit : ∀ u, exited (tr ++ [⟨p.lib, ⟨c, .joinAll⟩, myThreadJoinAll p.lib c⟩]) u ↔ exited tr u := by
    intro u
    simp
  have hcr : creator (tr ++ [⟨p.lib, ⟨c, .joinAll⟩, myThreadJoinAll p.lib c⟩]) = creator tr := by
    funext u
    rw [creator_snoc]
    simp
  refine ⟨h.plain.step hst (by simp) (by simp), h.main, ?_, ?_, ?_, ?_, ?_, fun u hu => h.bound u (hmade ▸ hu), h.fits⟩
  · rw [hmade]
    exact h.inj
  · rw [hmade]
    exact h.unborn
  · intro t ht hx
    rw [hmade] at ht
    rw [hexit] at hx
    rw [hcr, hmade]
    obtain ⟨x, hx, hs⟩ := h.body t ht hx
    by_cases htc : t = c
    · subst htc
      obtain rfl := Option.some.inj (hctx.symm.trans hx)
      exact ⟨.joined q, by simp, hs⟩
    · exact ⟨x, by simp [htc, hx], hs⟩
  · intro t hx
    rw [hexit] at hx
    have htc : t ≠ c := fun heq => hcx (heq ▸ hx)
    obtain ⟨h1, h2⟩ := h.gone t hx
    exact ⟨by simp [htc, h1], h2⟩
  · intro t q' hctx' hb
    by_cases htc : t = c
    · -- it did not block, so it has no child
      subst htc
      rw [he.children hI hcur]
      by_contra hne
      have hne' : (p.lib.threads t).children ≠ [] := by simpa using hne
      apply hb
      simp [myThreadJoinAll, hne']
    · have hold : p.contexts t = some (.joined q') := by simpa [htc] using hctx'
      exact h.plain.woken hst (by simp) (h.woken t q' hold) hb

/-- A thread exits; it has left its result where its number was. -/
theorem fibInv_exit (h : FibInv n tr p γ) (hcur : p.lib.currentThread = some c) {mem : Cell → ℤ}
    (hresult : mem (γ.cell c) = Nat.fib (γ.arg c)) (hother : ∀ k, k ≠ γ.cell c → mem k = p.memory k)
    (hfits : Fits n mem) :
    FibInv n (tr ++ [⟨p.lib, ⟨c, .exit⟩, myThreadExit p.lib c⟩])
      ⟨myThreadExit p.lib c, Function.update p.contexts c none, mem⟩ γ := by
  have hst : lib.step p.lib ⟨c, .exit⟩ (myThreadExit p.lib c) := ⟨hcur, trivial, rfl⟩
  have hI := h.plain.inv
  obtain ⟨-, he⟩ := step_effect hI hst
  obtain ⟨hc, hcx⟩ := hI.running hcur
  have hmade : (myThreadExit p.lib c).made = p.lib.made := by simpa using he.made
  have hexit : ∀ u, exited (tr ++ [⟨p.lib, ⟨c, .exit⟩, myThreadExit p.lib c⟩]) u ↔ exited tr u ∨ c = u := by
    intro u
    simp
  have hcr : creator (tr ++ [⟨p.lib, ⟨c, .exit⟩, myThreadExit p.lib c⟩]) = creator tr := by
    funext u
    rw [creator_snoc]
    simp
  have hcell : ∀ t < p.lib.made, t ≠ c → mem (γ.cell t) = p.memory (γ.cell t) := fun t ht htc =>
    hother _ fun heq => htc (h.inj t ht c hc heq)
  refine ⟨h.plain.step hst (by simp) (by simp), h.main, ?_, ?_, ?_, ?_, ?_, fun u hu => h.bound u (hmade ▸ hu), hfits⟩
  · rw [hmade]
    exact h.inj
  · rw [hmade]
    exact h.unborn
  · intro t ht hx
    rw [hmade] at ht
    rw [hexit, not_or] at hx
    rw [hcr, hmade]
    obtain ⟨x, hctx, hs⟩ := h.body t ht hx.1
    have htc : t ≠ c := Ne.symm hx.2
    refine ⟨x, by simp [htc, hctx], ?_⟩
    exact hs.mono ht le_rfl (fun _ _ => rfl) (fun _ _ => ⟨rfl, rfl⟩) (fun u hu hge => absurd hu (not_lt.mpr hge))
      (hcell t ht htc) fun hfree => hother _ (hfree c hc).symm
  · intro t hx
    rw [hexit] at hx
    by_cases htc : t = c
    · subst htc
      exact ⟨by simp, hresult⟩
    · have hx' : exited tr t := hx.resolve_right (Ne.symm htc)
      obtain ⟨h1, h2⟩ := h.gone t hx'
      exact ⟨by simp [htc, h1], (hcell t (hI.exitedMade t hx') htc).trans h2⟩
  · intro t q hctx hb
    have htc : t ≠ c := by
      rintro rfl
      simp at hctx
    have hold : p.contexts t = some (.joined q) := by simpa [htc] using hctx
    exact h.plain.woken hst (by simp) (h.woken t q hold) hb

/-- The children of a thread that goes on behind `MyThreadJoinAll` have left their results. -/
theorem FibInv.result (h : FibInv n tr p γ) (hcur : p.lib.currentThread = some c) {q : Cell}
    (hctx : p.contexts c = some (.joined q)) {k : Cell} {a : ℕ}
    (hchild : Child (creator tr) p.lib.made γ c k a) : p.memory k = Nat.fib a := by
  have hI := h.plain.inv
  obtain ⟨u, -, rfl, rfl, hcr⟩ := hchild
  have hnil := h.woken c q hctx (hI.running_not_blocked hcur)
  have hx : exited tr u := by
    by_contra hx
    have hmem : u ∈ (p.lib.threads c).children := by
      rw [hI.children, mem_liveChildren]
      exact ⟨hcr, hx⟩
    rw [hnil] at hmem
    cases hmem
  exact (h.gone u hx).2

/-- The thread made last is a child of who made it. -/
theorem child_make {s s' : State} (hI : Inv tr s) (k : Cell) (a : ℕ) :
    Child (creator (tr ++ [⟨s, ⟨c, .create⟩, s'⟩])) (s.made + 1) (γ.make s.made k a) c k a := by
  obtain ⟨h1, h2⟩ := Ghost.make_self (γ := γ) s.made k a
  exact ⟨s.made, Nat.lt_succ_self _, h1, h2, by rw [creator_create hI, if_pos rfl]⟩

/-- **Every call keeps the invariant**, and uses up one of the calls left. -/
theorem fibInv_step (h : FibInv n tr p γ) {e : Event} {p' : Proc} (hst : (program n).lts.step p e p') :
    (∃ tr' γ', FibInv n tr' p' γ') ∧ callsLeft p' + 1 = callsLeft p := by
  obtain ⟨c, x, hcur, hctx, hr⟩ := Program.exec_cases hst
  have hI := h.plain.inv
  obtain ⟨hc, hcx⟩ := hI.running hcur
  obtain ⟨x', hctx', hs⟩ := h.body c hc hcx
  obtain rfl := Option.some.inj (hctx.symm.trans hctx')
  change Program.respond p c (next c x p.memory).2 (next c x p.memory).1 = _ at hr
  have hexit : ∀ mem : Cell → ℤ, (∀ k, k ≠ γ.cell c → mem k = p.memory k) →
      callsLeft ⟨myThreadExit p.lib c, Function.update p.contexts c none, mem⟩ +
        pointCalls p.memory c (p.contexts c) = callsLeft p := by
    intro mem hmem
    have hmade : (myThreadExit p.lib c).made = p.lib.made := by
      simpa using (step_effect hI (e := ⟨c, .exit⟩) ⟨hcur, trivial, rfl⟩).2.made
    have := callsLeft_move h hc hmade (fun t _ htc => Function.update_of_ne htc none p.contexts)
      (fun u hu huc => hmem _ fun heq => huc (h.inj u hu c hc heq)) fun t _ hfree => hmem _ (hfree c hc).symm
    rw [Function.update_self] at this
    exact this
  cases x with
  | start q =>
    obtain ⟨rfl, hmem, hfree⟩ := hs
    by_cases h0 : p.memory (γ.cell c) = 0
    · have harg : γ.arg c = 0 := by omega
      simp only [next, if_pos h0] at hr
      obtain ⟨rfl, rfl⟩ := Prod.mk.inj (Option.some.inj hr)
      refine ⟨⟨_, γ, fibInv_exit h hcur (by rw [h0, harg]; rfl) (fun _ _ => rfl) h.fits⟩, ?_⟩
      have := hexit p.memory (fun _ _ => rfl)
      rw [hctx] at this
      simpa [pointCalls, h0, calls] using this
    · by_cases h1 : p.memory (γ.cell c) = 1
      · have harg : γ.arg c = 1 := by omega
        simp only [next, if_neg h0, if_pos h1] at hr
        obtain ⟨rfl, rfl⟩ := Prod.mk.inj (Option.some.inj hr)
        refine ⟨⟨_, γ, fibInv_exit h hcur (by rw [h1, harg]; rfl) (fun _ _ => rfl) h.fits⟩, ?_⟩
        have := hexit p.memory (fun _ _ => rfl)
        rw [hctx] at this
        simpa [pointCalls, h1, calls] using this
      · -- the first child
        simp only [next, if_neg h0, if_neg h1] at hr
        obtain ⟨rfl, rfl⟩ := Prod.mk.inj (Option.some.inj hr)
        have htwo : 2 ≤ γ.arg c := by omega
        have harg : ((γ.arg c - 1 : ℕ) : ℤ) = p.memory (γ.cell c) - 1 := by omega
        obtain ⟨hne, -⟩ := hfree c hc
        have hle := (h.fits (γ.cell c)).2
        have hsame := Function.update_of_ne hne (p.memory (γ.cell c) - 1) p.memory
        obtain ⟨hcell, harg'⟩ := Ghost.make_of_lt (γ := γ) hc (.n1 c) (γ.arg c - 1)
        refine ⟨⟨_, γ.make p.lib.made (.n1 c) (γ.arg c - 1), fibInv_create h hcur (Or.inl rfl)
          (fun u hu => (hfree u hu).1) ?_ (fun u hu => ?_) (fun u hu => ?_) (by simp)
          ((Nat.sub_le _ _).trans (h.bound c hc)) ((h.fits.update _ (by omega) (by omega)).update _ (by omega) (by omega))
          ⟨hcell.symm, by rwa [harg'], ?_, ?_, fun u hu => ?_⟩⟩, ?_⟩
        · simp [harg]
        · simp [(hfree u hu).1, (hfree u hu).2]
        · simp [hu]
        · simp [hne, harg', hmem]
        · rw [harg']
          exact child_make hI _ _
        · rcases Nat.lt_succ_iff_lt_or_eq.mp hu with hu | rfl
          · rw [(Ghost.make_of_lt hu _ _).1]
            exact (hfree u hu).2
          · rw [(Ghost.make_self _ _ _).1]
            simp
        · refine callsLeft_create h hc rfl (fun u hu _ => by simp [(hfree u hu).1, (hfree u hu).2])
            (fun t htc _ => by simp [htc]) ?_
          have h1 : (p.memory (γ.cell c)).toNat = γ.arg c := by omega
          have h2 : (p.memory (γ.cell c) - 1).toNat = γ.arg c - 1 := by omega
          have h3 : (p.memory (γ.cell c) - 2).toNat = γ.arg c - 2 := by omega
          have hcalls := calls_of_two_le htwo
          rw [hctx]
          simp only [pointCalls, Function.update_self, Function.update_of_ne hne, ne_eq, reduceCtorEq,
            not_false_eq_true, Function.update_of_ne, h1, h2, h3]
          omega
  | first q =>
    -- the second child
    obtain ⟨rfl, htwo, hmem, hfirst, hfree⟩ := hs
    simp only [next] at hr
    obtain ⟨rfl, rfl⟩ := Prod.mk.inj (Option.some.inj hr)
    have harg : p.memory (.n2 c) = (γ.arg c - 2 : ℕ) := by omega
    obtain ⟨hcell, harg'⟩ := Ghost.make_of_lt (γ := γ) hc (.n2 c) (γ.arg c - 2)
    refine ⟨⟨_, γ.make p.lib.made (.n2 c) (γ.arg c - 2), fibInv_create h hcur (Or.inr rfl) hfree harg (fun _ _ => rfl)
      (fun _ _ => rfl) (by simp) ((Nat.sub_le _ _).trans (h.bound c hc)) h.fits ⟨hcell.symm, by rwa [harg'], ?_, ?_⟩⟩, ?_⟩
    · rw [harg']
      refine hfirst.mono (Nat.le_succ _) (fun u hu => ?_) fun u hu => Ghost.make_of_lt hu _ _
      rw [creator_create hI, if_neg hu.ne]
    · rw [harg']
      exact child_make hI _ _
    · refine callsLeft_create h hc rfl (fun _ _ _ => rfl) (fun _ _ _ => rfl) ?_
      rw [hctx]
      simp only [pointCalls]
      omega
  | second q =>
    simp only [next] at hr
    obtain ⟨rfl, rfl⟩ := Prod.mk.inj (Option.some.inj hr)
    have hmade : (myThreadJoinAll p.lib c).made = p.lib.made := by
      simpa using (step_effect hI (e := ⟨c, .joinAll⟩) ⟨hcur, trivial, rfl⟩).2.made
    have := callsLeft_move h hc hmade (fun t _ htc => Function.update_of_ne htc (some (.joined q)) p.contexts)
      (fun _ _ _ => rfl) fun _ _ _ => rfl
    rw [hctx, Function.update_self] at this
    simp only [pointCalls] at this
    exact ⟨⟨_, γ, fibInv_joinAll h hcur hctx⟩, by omega⟩
  | joined q =>
    obtain ⟨rfl, htwo, h1, h2⟩ := hs
    simp only [next] at hr
    obtain ⟨rfl, rfl⟩ := Prod.mk.inj (Option.some.inj hr)
    have hsum : p.memory (.n1 c) + p.memory (.n2 c) = Nat.fib (γ.arg c) := by
      have hfib : Nat.fib (γ.arg c) = Nat.fib (γ.arg c - 1) + Nat.fib (γ.arg c - 2) := by
        obtain ⟨m, hm⟩ := Nat.exists_eq_add_of_le htwo
        rw [hm, Nat.add_comm 2 m, Nat.fib_add_two, Nat.add_comm]
        rfl
      rw [h.result hcur hctx h1, h.result hcur hctx h2, hfib]
      push_cast
      rfl
    have hle : Nat.fib (γ.arg c) ≤ Nat.fib n := Nat.fib_mono (h.bound c hc)
    refine ⟨⟨_, γ, fibInv_exit h hcur ?_ (fun k hk => ?_) (h.fits.update _ (by omega) (by omega))⟩, ?_⟩
    · rw [Function.update_self, hsum]
    · simp [hk]
    · have := hexit (Function.update p.memory (γ.cell c) (p.memory (.n1 c) + p.memory (.n2 c))) fun k hk => by simp [hk]
      rw [hctx] at this
      exact this

end Step

/-! ### The whole run -/

theorem fibInv_init (n : ℕ) : FibInv n [] (program n).init ⟨fun _ => .n, fun _ => n⟩ := by
  have hmade : (program n).init.lib.made = 1 := rfl
  refine ⟨⟨.nil _, fun x hx => absurd hx List.not_mem_nil, fun _ => rfl⟩, ⟨rfl, rfl⟩, ?_, ?_, ?_, ?_, ?_,
    fun _ _ => le_rfl, ?_⟩
  · rw [hmade]
    intro t ht u hu _
    exact (Nat.lt_one_iff.mp ht).trans (Nat.lt_one_iff.mp hu).symm
  · exact fun u _ t _ => ⟨by simp, by simp⟩
  · rw [hmade]
    intro t ht _
    obtain rfl := Nat.lt_one_iff.mp ht
    exact ⟨.start .n, rfl, rfl, rfl, fun u _ => ⟨by simp, by simp⟩⟩
  · exact fun t ht => absurd ht (exited_nil t)
  · exact fun t _ _ _ => rfl
  · have hzero : Fits n fun _ => 0 := fun _ => ⟨le_rfl, Int.natCast_nonneg _⟩
    exact hzero.update _ (by omega) (by omega)

/-- Whoever runs is at a point of its body, and its next call has an outcome. -/
theorem FibInv.goes {n : ℕ} {tr : Trace} {p : Proc} {γ : Ghost} (h : FibInv n tr p γ) {c : Tid}
    (hcur : p.lib.currentThread = some c) : ∃ e p', (program n).lts.step p e p' := by
  obtain ⟨hc, hcx⟩ := h.plain.inv.running hcur
  obtain ⟨x, hctx, -⟩ := h.body c hc hcx
  have hex := Program.exec_at (P := program n) hcur hctx
  suffices hsome : ∃ r, (program n).exec p = some r by
    obtain ⟨⟨e, p'⟩, hr⟩ := hsome
    exact ⟨e, p', hr⟩
  rw [hex]
  show ∃ r, Program.respond p c (next c x p.memory).2 (next c x p.memory).1 = some r
  cases x with
  | start q =>
    by_cases h0 : p.memory q = 0
    · simp only [next, if_pos h0]
      exact ⟨_, rfl⟩
    · by_cases h1 : p.memory q = 1
      · simp only [next, if_neg h0, if_pos h1]
        exact ⟨_, rfl⟩
      · simp only [next, if_neg h0, if_neg h1]
        exact ⟨_, rfl⟩
  | first q => exact ⟨_, rfl⟩
  | second q => exact ⟨_, rfl⟩
  | joined q => exact ⟨_, rfl⟩

/-- All is done: nobody runs, is ready or blocked, every body has come to its end, and the
result is where `main` finds it. -/
structure Done (n : ℕ) (p : Proc) : Prop where
  current : p.lib.currentThread = none
  ready : p.lib.readyQueue = []
  blocked : p.lib.blockedQueue = []
  contexts : ∀ t < p.lib.made, p.contexts t = none
  result : p.memory .n = Nat.fib n

/-- When nobody runs, nobody is left. -/
theorem FibInv.done {n : ℕ} {tr : Trace} {p : Proc} {γ : Ghost} (h : FibInv n tr p γ)
    (hend : p.lib.currentThread = none) : Done n p := by
  have hI := h.plain.inv
  have hpos : 0 < p.lib.made := by
    have := hI.made
    omega
  refine ⟨hend, ready_of_halted h.plain.run hend, ?_, fun t ht => (h.gone t (h.plain.all_exited hend ht)).1, ?_⟩
  · apply List.eq_nil_iff_forall_not_mem.mpr
    intro t ht
    have hplaced := hI.placed t
    have hcount : 0 < p.lib.blockedQueue.count t := List.count_pos_iff.mpr ht
    rw [count_places, if_neg fun hlive => hlive.2 (h.plain.all_exited hend hlive.1)] at hplaced
    omega
  · have := (h.gone 0 (h.plain.all_exited hend hpos)).2
    rwa [h.main.1, h.main.2] at this

theorem Done.callsLeft {n : ℕ} {p : Proc} (h : Done n p) : callsLeft p = 0 := by
  have hzero : (List.range p.lib.made).map (fun t => pointCalls p.memory t (p.contexts t)) =
      (List.range p.lib.made).map fun _ => 0 := by
    apply List.map_congr_left
    intro t ht
    rw [h.contexts t (List.mem_range.mp ht)]
    rfl
  unfold Fib.callsLeft
  rw [hzero]
  simp

theorem fib_countdown (n : ℕ) : (program n).lts.Countdown (fun p => ∃ tr γ, FibInv n tr p γ) callsLeft where
  keeps := by
    rintro p e p' ⟨tr, γ, h⟩ hst
    exact (fibInv_step h hst).1
  counts := by
    rintro p e p' ⟨tr, γ, h⟩ hst
    exact (fibInv_step h hst).2
  goes := by
    rintro p ⟨tr, γ, h⟩ hpos
    cases hcur : p.lib.currentThread with
    | none =>
      rw [(h.done hcur).callsLeft] at hpos
      exact absurd hpos (lt_irrefl 0)
    | some c => exact h.goes hcur

/-- **The threads compute the Fibonacci numbers.** The run that `MyThreadInit` starts ends,
after `5 * fib (n + 1) - 4` calls of the library, with `fib n` in the variable of `main`.
There is no other run, and all values on the way are small. -/
theorem program_runs (n : ℕ) : ∃ tr p, (program n).lts.Run (program n).init tr p ∧ Done n p ∧
    tr.length + 4 = 5 * Nat.fib (n + 1) ∧
    ∀ tr' p', (program n).lts.Run (program n).init tr' p' → tr' <+: tr ∧ Fits n p'.memory := by
  have hinit : ∃ tr γ, FibInv n tr (program n).init γ := ⟨_, _, fibInv_init n⟩
  have hcount := fib_countdown n
  obtain ⟨tr, p, hr, hlen, hstuck⟩ := hcount.finish hinit
  obtain ⟨⟨tr', γ, h⟩, -⟩ := hcount.length hinit hr
  have hcalls : callsLeft (program n).init = calls n := by
    show calls (n : ℤ).toNat + 0 = calls n
    rw [Nat.add_zero, Int.toNat_natCast]
  have hend : p.lib.currentThread = none := by
    cases hcur : p.lib.currentThread with
    | none => rfl
    | some c =>
      obtain ⟨e, p', hst⟩ := h.goes hcur
      exact absurd hst (hstuck e p')
  refine ⟨tr, p, hr, h.done hend, ?_, ?_⟩
  · rw [hlen, hcalls, calls_eq]
  · intro tr₁ p₁ hr₁
    obtain ⟨⟨_, _, h₁⟩, -⟩ := hcount.length hinit hr₁
    exact ⟨Program.run_covers hr hstuck hr₁, h₁.fits⟩

theorem fib_le_of_le_ten {n : ℕ} (h : n ≤ 10) : max n (Nat.fib n) ≤ 55 := by
  have hfib : Nat.fib n ≤ Nat.fib 10 := Nat.fib_mono h
  have hten : Nat.fib 10 = 55 := by decide
  omega

/-- **`fib.c` prints the Fibonacci number of its argument.** A number from 0 to 10 passes
the check; then the run on the library comes to an end, after `5 * fib (n + 1) - 4` calls,
with every thread exited and none ready or blocked, and `fib n` is printed. In every state
of it all values are from 0 to 55. Any other number is refused, and nothing is run. -/
theorem fib_runs (n : ℤ) :
    if 0 ≤ n ∧ n ≤ 10 then
      ∃ P tr p, main n = ("fib(" ++ toString n ++ ") = ", some P) ∧ P.lts.Run P.init tr p ∧ Done n.toNat p ∧
        printed p.memory = toString (Nat.fib n.toNat : ℤ) ++ "\n" ∧ tr.length + 4 = 5 * Nat.fib (n.toNat + 1) ∧
        ∀ tr' p', P.lts.Run P.init tr' p' → tr' <+: tr ∧ ∀ k, 0 ≤ p'.memory k ∧ p'.memory k ≤ 55
    else main n = ("invalid value for n (" ++ toString n ++ ")\n", none) := by
  split_ifs with h
  · obtain ⟨m, rfl⟩ := Int.eq_ofNat_of_zero_le h.1
    have hm : m ≤ 10 := by omega
    obtain ⟨tr, p, hr, hdone, hlen, hall⟩ := program_runs m
    refine ⟨program m, tr, p, if_neg (by omega), hr, hdone, ?_, hlen, ?_⟩
    · rw [printed, hdone.result, Int.toNat_natCast]
    · intro tr' p' hr'
      obtain ⟨hpre, hfits⟩ := hall tr' p' hr'
      have hle := fib_le_of_le_ten hm
      refine ⟨hpre, fun k => ⟨(hfits k).1, ?_⟩⟩
      have := (hfits k).2
      omega
  · exact if_pos (by omega)

end Fib
end Threads
end Csc501

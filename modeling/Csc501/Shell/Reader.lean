/-
# The parser as an automaton

What a call of `parse` returns is what the automaton of `Automaton` reads from the
tokens of the line (`parse_read`): the loop over a command is the automaton inside
one, `mkCmd` is the automaton from one end of a command to the next, and so on up to
`mkPipe`. Each lemma has the pipes that are read already as a variable, since the
calls of `mkPipe` are nested and the automaton goes from left to right.

Key definitions: `lineTokens`, `Follows`, `LoopReads`, `MadeReads`, `PipeReads`, `PipesRead`.
Key theorems: `cmdLoop_read`, `mkCmd_read`, `pipeLoop_read`, `mkPipe_read`, `parse_read`.
-/
import Csc501.Shell.Automaton

namespace Csc501
namespace Shell

open Lib

/-! ### The parser and the tokens -/

/-- The tokens from the one ahead on, to the one that ends the line. -/
def tokensFrom : ℕ → St → List (Token × Text)
  | 0, _ => []
  | n + 1, s =>
    (s.la, if s.la = .tword then s.word else []) :: if s.la.endOfInput then [] else tokensFrom n (next s)

/-- The tokens of the line that a call of `parse` reads. -/
def lineTokens (s : St) : List (Token × Text) := tokensFrom (s.input.length + 1) (next s)

/-- The tokens from the one ahead on are `l`, with the words that `f` gives, and
behind the one that ends the line `e` is left. -/
inductive Follows {ω : Type*} (f : ω → Text) (e : Text) : List (Token × ω) → St → Prop
  | last {s : St} {x : ω} : s.la.endOfInput = true → s.input = e → Follows f e [(s.la, x)] s
  | more {s : St} {x : ω} {l : List (Token × ω)} : s.la.endOfInput = false → (s.la = .tword → f x = s.word) →
      Follows f e l (next s) → Follows f e ((s.la, x) :: l) s

section Follows

variable {ω : Type*} {f : ω → Text} {e : Text} {l : List (Token × ω)} {s s' : St}

/-- What was printed does not matter. -/
theorem Follows.print (h : Follows f e l s) (text : String) : Follows f e l (s.print text) := by
  suffices ∀ printed, Follows f e l { s with printed := printed } from this _
  induction h with
  | @last s _ he hs => exact fun printed => .last (s := { s with printed := printed }) he hs
  | @more s _ _ he hw _ ih => exact fun printed => .more (s := { s with printed := printed }) he hw (ih _)

theorem Follows.cons (h : Follows f e l s) : ∃ x l', l = (s.la, x) :: l' ∧ (s.la = .tword → f x = s.word) ∧
    (s.la.endOfInput = false → Follows f e l' (next s)) := by
  cases h with
  | @last _ x he _ =>
    refine ⟨x, [], rfl, ?_, ?_⟩
    · intro hw
      rw [hw] at he
      exact absurd he (by decide)
    · intro hn
      exact absurd (he.symm.trans hn) (by simp)
  | @more _ x l _ hw hl => exact ⟨x, l, rfl, hw, fun _ => hl⟩

/-- At the token that ends the line. -/
theorem Follows.input_eq (h : Follows f e l s) (he : s.la.endOfInput = true) : s.input = e := by
  cases h with
  | last _ hs => exact hs
  | more hn => exact absurd (he.symm.trans hn) (by simp)

end Follows

/-- The tokens of a line are those that are read. -/
theorem follows_tokensFrom {s' : St} : ∀ {n m : ℕ} {s : St}, s.size < n → skipToEnd m s = some s' →
    Follows id s'.input (tokensFrom n s) s
  | 0, _, _, h, _ => absurd h (Nat.not_lt_zero _)
  | _ + 1, 0, _, _, hs => absurd hs (by simp [skipToEnd])
  | n + 1, m + 1, s, h, hs => by
    rw [skipToEnd] at hs
    rw [tokensFrom]
    split_ifs at hs with he
    · cases hs
      rw [if_pos he]
      exact .last he rfl
    · have hn := Bool.eq_false_iff.mpr he
      have hlt := size_next_lt hn
      rw [if_neg he]
      exact .more hn (fun hw => if_pos hw) (follows_tokensFrom (by omega) hs)

/-- They follow the one that is ahead of the parser, and what is left behind them is
the same for all calls. -/
theorem follows_line (s : St) : ∃ e, Follows id e (lineTokens s) (next s) := by
  obtain ⟨s', hskip, -, -⟩ := skipToEnd_ok (Nat.lt_succ_self (next s).size)
  exact ⟨s'.input, follows_tokensFrom (Nat.lt_succ_of_le (size_next_input s)) hskip⟩

theorem skipToEnd_end : ∀ {n : ℕ} {s s' : St}, skipToEnd n s = some s' → s'.la.endOfInput = true
  | 0, _, _, hs => absurd hs (by simp [skipToEnd])
  | n + 1, s, s', hs => by
    rw [skipToEnd] at hs
    split_ifs at hs with he
    · cases hs
      exact he
    · exact skipToEnd_end hs

/-! ### Commands -/

section Commands

variable {ω : Type*} {f : ω → Text} {e : Text} {l l' : List (Token × ω)} {k k' : Reading ω} {w w' : Where}
  {inpipe : Token} {s s' : St}

/-- Behind the loop over a command: an error keeps the pipes that are read. -/
def LoopReads (f : ω → Text) (e : Text) (inpipe : Token) (w : Where) (k : Reading ω) (l : List (Token × ω)) (s : St) :
    Option Cmd → Prop
  | none => s.la.endOfInput = true ∧ ∀ done, trees.read w (some k) done l = done
  | some c => ∃ l' k', Follows f e l' s ∧ c.Ok inpipe ∧ c.sofar = k'.cmd.sofar f ∧ k'.type = k.type ∧
      k'.cmds = k.cmds ∧ s.la.inCmd = false ∧ ∀ done, trees.read w (some k) done l = trees.read c.inside (some k') done l'

theorem LoopReads.step {r : Option Cmd} (h : LoopReads f e inpipe w' k' l' s r) (ht : k'.type = k.type)
    (hc : k'.cmds = k.cmds) (hr : ∀ done, trees.read w (some k) done l = trees.read w' (some k') done l') :
    LoopReads f e inpipe w k l s r := by
  cases r with
  | none => exact ⟨h.1, fun done => (hr done).trans (h.2 done)⟩
  | some c =>
    obtain ⟨l₁, k₁, hf, hok, hso, ht₁, hc₁, hin, hr₁⟩ := h
    exact ⟨l₁, k₁, hf, hok, hso, ht₁.trans ht, hc₁.trans hc, hin, fun done => (hr done).trans (hr₁ done)⟩

/-- A redirection, with what follows it. -/
theorem redirect_read {n : ℕ} {text : String} {r : Option Cmd} {inp out : Bool} {c : Cmd} {op : Token} {x : ω}
    (hs : Follows f e l s) (hstep : ∀ done, trees.read w (some k) done ((op, x) :: l) =
      trees.read (.redirect inp out) (some k') done l)
    (hr : (if s.la ≠ .tword then (skipLine n (s.print text)).map fun s => (none, s) else cmdLoop n c (next s)) =
      some (r, s'))
    (hword : ∀ y l₂, s.la = .tword → f y = s.word → Follows f e l₂ (next s) → cmdLoop n c (next s) = some (r, s') →
      LoopReads f e inpipe (.inside inp out) (k'.file y) l₂ s' r) (ht : k'.type = k.type) (hc : k'.cmds = k.cmds) :
    LoopReads f e inpipe w k ((op, x) :: l) s' r := by
  obtain ⟨y, l₂, rfl, hy, hl⟩ := hs.cons
  split_ifs at hr with hla
  · obtain ⟨s₁, hs₁, heq⟩ := Option.map_eq_some_iff.mp hr
    cases heq
    exact ⟨skipToEnd_end hs₁, fun done => (hstep done).trans (read_noFile hla done)⟩
  · have hla' : s.la = .tword := not_not.mp hla
    refine (hword y l₂ hla' (hy hla') (hl (by rw [hla']; rfl)) hr).step (file_type.trans ht) (file_cmds.trans hc) ?_
    intro done
    rw [hstep done, hla']
    exact read_file done

/-- An operator that may not stand here. -/
theorem ambiguous_read {n : ℕ} {text : String} {r : Option Cmd} (hs : Follows f e l s) (he : s.la.endOfInput = false)
    (hw : w.step s.la = some .skipping)
    (hr : (skipLine n (s.print text)).map (fun s => ((none : Option Cmd), s)) = some (r, s')) :
    LoopReads f e inpipe w k l s' r := by
  obtain ⟨x, l', rfl, -, -⟩ := hs.cons
  obtain ⟨s₁, hs₁, heq⟩ := Option.map_eq_some_iff.mp hr
  cases heq
  exact ⟨skipToEnd_end hs₁, fun done => Keeper.read_skipping done he hw⟩

/-- **The loop over a command is the automaton inside one.** -/
theorem cmdLoop_read : ∀ {n : ℕ} {c : Cmd} {l : List (Token × ω)} {k : Reading ω} {s s' : St} {r : Option Cmd},
    Follows f e l s → c.Ok inpipe → c.sofar = k.cmd.sofar f → cmdLoop n c s = some (r, s') →
    LoopReads f e inpipe c.inside k l s' r
  | 0, _, _, _, _, _, _, _, _, _, hr => absurd hr (by simp [cmdLoop])
  | n + 1, c, l, k, s, s', r, hs, hok, hso, hr => by
    rcases s.la.inCmd_cases with hla | hla | hla | hla
    · -- an input, from a file
      have he : s.la.endOfInput = false := by
        rw [hla]
        rfl
      rw [cmdLoop_in hla] at hr
      by_cases h1 : c.inp ≠ .tnil
      · rw [if_pos h1] at hr
        exact ambiguous_read hs he (hla ▸ inside_step_in_again h1) hr
      · rw [if_neg h1] at hr
        have hstep := inside_step_in (not_not.mp h1)
        rw [← hla] at hstep
        obtain ⟨x, l', rfl, -, hl⟩ := hs.cons
        refine redirect_read (hl he) (read_next he hstep (by simp)) hr ?_ (next_type (hla ▸ rfl)) next_cmds
        intro y l₂ _ hy hl₂ hr
        refine cmdLoop_read hl₂ (hok.setIn (not_not.mp h1) _) ?_ hr
        rw [← hy, hla]
        exact congrArg (fun v => { v with inp := .tin, infile := some (cstr (f y)) }) hso
    · -- an output, to a file
      have he := Token.endOfInput_of_toFile hla
      obtain ⟨-, hin, hnil⟩ := Token.toFile_ne hla
      rw [cmdLoop_out hla] at hr
      by_cases h1 : c.out ≠ .tnil
      · rw [if_pos h1] at hr
        exact ambiguous_read hs he (inside_step_out_again hla h1) hr
      · rw [if_neg h1] at hr
        have hstep := inside_step_out hla (not_not.mp h1)
        obtain ⟨x, l', rfl, -, hl⟩ := hs.cons
        have hplace : { c with out := s.la, outfile := some (cstr (next s).word) }.inside =
            .inside (c.inp ≠ .tnil) true := by
          simp [Cmd.inside, hnil]
        refine redirect_read (hl he) (read_next he hstep (by simp)) hr ?_ (next_type (Token.pipeToken_of_toFile hla)) next_cmds
        intro y l₂ _ hy hl₂ hr
        rw [← hplace]
        refine cmdLoop_read hl₂ (hok.setOut hla _) ?_ hr
        rw [← hy, next_out hla, Reading.file, if_neg hin]
        exact congrArg (fun v => { v with out := s.la, outfile := some (cstr (f y)) }) hso
    · -- a word
      rw [cmdLoop_word hla] at hr
      obtain ⟨c₁, hc₁, hr⟩ := Option.bind_eq_some_iff.mp hr
      obtain ⟨c₂, hc₂, hok₂⟩ := hok.addArg s.word
      cases hc₁.symm.trans hc₂
      obtain ⟨x, l', rfl, hx, hl⟩ := hs.cons
      have hstep : c.inside.step s.la = some c₁.inside := by
        rw [hla, addArg_inside hc₁]
        rfl
      have he : s.la.endOfInput = false := by
        rw [hla]
        rfl
      refine (cmdLoop_read (hl he) hok₂ ?_ hr).step (next_type (hla ▸ rfl)) next_cmds (read_next he hstep (by simp [Cmd.inside]))
      have hn : c.nargs = k.cmd.args.length + 1 := congrArg CmdView.nargs hso
      rw [addArg_sofar hok hc₁, hso, hla, ← hx hla]
      simp [Simple.sofar, Reading.next, hn]
    · -- the end of the command
      rw [cmdLoop_stop hla] at hr
      cases hr
      exact ⟨l, k, hs, hok, hso, rfl, rfl, hla, fun _ => rfl⟩

/-- Behind a command it does not matter whether it was ended by a `;`. -/
theorem read_inside {c : Cmd} {t : Token} {x : ω} (hin : t.inCmd = false) (herr : t ≠ .terror)
    (hcmd : t.cmdToken = false) (done : List (Built ω)) :
    trees.read c.inside (some k) done ((t, x) :: l) = trees.read c.ended (some k) done ((t, x) :: l) := by
  have hstep : c.inside.step t = c.ended.step t := by
    revert hin hcmd
    unfold Cmd.ended Cmd.inside
    cases t <;> simp [Where.step, Where.begin, Token.inCmd, Token.toFile, Token.cmdToken, Token.pipeToken]
  cases he : t.endOfInput with
  | true =>
    rw [Keeper.read_end done he, Keeper.read_end done he]
    exact congrArg (done ++ ·) (if_neg herr)
  | false =>
    cases hp : t.pipeToken with
    | true =>
      have hf : c.ended.fresh t = false := by simp [Cmd.ended, Where.fresh, hp]
      rw [Keeper.read, Keeper.read, hstep, hf, he]
      rfl
    | false =>
      have hnone : c.ended.step t = none := by
        revert hin hcmd he hp
        unfold Cmd.ended
        cases t <;> simp [Where.step, Where.begin, Token.inCmd, Token.cmdToken, Token.pipeToken, Token.endOfInput]
      rw [Keeper.read_stop done he (hstep.trans hnone), Keeper.read_stop done he hnone]

/-- Behind a call of `mkCmd`, by what it returns; `type` and `cmds` are those of the
pipe in front of the command. -/
def MadeReads (f : ω → Text) (e : Text) (w : Where) (k : Option (Reading ω)) (l : List (Token × ω)) (type : Ptype)
    (cmds : List (Simple ω)) (s : St) : Made → Prop
  | .null => s.la.endOfInput = true ∧ (∀ done, trees.read w k done l = done) ∨
      ∃ l', Follows f e l' s ∧ s.la.endOfInput = false ∧ s.la.cmdToken = false ∧ s.la ≠ .tword ∧
        ∀ done, trees.read w k done l = trees.read w k done l'
  | .empty => s.la.endOfInput = true ∧ ∀ done, trees.read w k done l = done
  | .ended => s.la = .tend ∧ s.input = e ∧ ∀ done, trees.read w k done l = done ++ trees.finish w k .tend
  | .cmd c => ∃ l' k', Follows f e l' s ∧ c.view = k'.cmd.view f ∧ k'.type = type ∧ k'.cmds = cmds ∧
      ∀ done, trees.read w k done l = trees.read c.ended (some k') done l'

/-- The end of a command. -/
theorem endCmd_read {c : Cmd} {r : Made} (hs : Follows f e l s) (hok : c.Ok inpipe) (hso : c.sofar = k.cmd.sofar f)
    (hin : s.la.inCmd = false) (hr : endCmd c s = some (r, s')) :
    r = .null ∧ s'.la.endOfInput = true ∧ (∀ done, trees.read c.inside (some k) done l = done) ∨
      ∃ c' l' k', r = .cmd c' ∧ Follows f e l' s' ∧ c'.view = k'.cmd.view f ∧ k'.type = k.type ∧ k'.cmds = k.cmds ∧
        ∀ done, trees.read c.inside (some k) done l = trees.read c'.ended (some k') done l' := by
  obtain ⟨x, l', rfl, -, hl⟩ := hs.cons
  have hexec : c.exec = k.cmd.exec := congrArg CmdView.exec hso
  have hview : ∀ {exec : Token} {c' : Cmd}, { c with exec := exec }.setArg c.nargs .null = some c' →
      c'.view = { k.cmd with exec := exec }.view f := by
    intro exec c' hc'
    rw [setArg_null_view hok hc', hso]
    rfl
  have hsame : { c with exec := k.cmd.exec } = c := by rw [← hexec]
  unfold endCmd at hr
  split_ifs at hr with h1 h2 h3
  · cases hr
    refine .inl ⟨rfl, by rw [h1]; rfl, ?_⟩
    intro done
    rw [h1, Keeper.read_end done rfl]
    exact List.append_nil done
  all_goals
    obtain ⟨c', hc', heq⟩ := Option.map_eq_some_iff.mp hr
    cases heq
    have hend := setArg_ended hc'
  · refine .inr ⟨c', l', k, rfl, hl (by rw [h2]; rfl), hview (hsame ▸ hc'), rfl, rfl, ?_⟩
    intro done
    rw [h2, hend]
    exact read_next rfl (show c.inside.step .tsemi = some c.ended from rfl) (by simp [Cmd.ended]) done
  · refine .inr ⟨c', l', { k with cmd := { k.cmd with exec := .tamp } }, rfl, hl (by rw [h3]; rfl), hview hc', rfl, rfl, ?_⟩
    intro done
    rw [h3, hend]
    exact read_next rfl (show c.inside.step .tamp = some c.ended from rfl) (by simp [Cmd.ended]) done
  · have hcmd : s.la.cmdToken = false := by
      revert h2 h3
      cases s.la <;> simp [Token.cmdToken]
    refine .inr ⟨c', _, k, rfl, hs, hview (hsame ▸ hc'), rfl, rfl, ?_⟩
    intro done
    rw [hend]
    exact read_inside hin h1 hcmd done

/-- The separators in front of a command. -/
theorem skipCmdTokens_read {k : Option (Reading ω)} {type : Ptype} {cmds : List (Simple ω)}
    (hw : Opens w k inpipe type cmds) : ∀ {n : ℕ} {l : List (Token × ω)} {s s' : St}, Follows f e l s →
    skipCmdTokens n s = some s' →
    ∃ l', Follows f e l' s' ∧ s'.la.cmdToken = false ∧ ∀ done, trees.read w k done l = trees.read w k done l'
  | 0, _, _, _, _, hr => absurd hr (by simp [skipCmdTokens])
  | n + 1, l, s, s', hs, hr => by
    rw [skipCmdTokens] at hr
    split_ifs at hr with ht
    · obtain ⟨x, l₁, rfl, -, hl⟩ := hs.cons
      obtain ⟨l', hl', hcmd, hread⟩ := skipCmdTokens_read hw (hl (Token.endOfInput_of_cmdToken ht)) hr
      exact ⟨l', hl', hcmd, fun done => (hw.skip done ht).trans (hread done)⟩
    · cases hr
      exact ⟨l, hs, Bool.eq_false_iff.mpr ht, fun _ => rfl⟩

/-- **A call of `mkCmd` is the automaton up to the end of a command.** -/
theorem mkCmd_read {n : ℕ} {k : Option (Reading ω)} {type : Ptype} {cmds : List (Simple ω)} {r : Made}
    (hw : Opens w k inpipe type cmds) (hin : inpipe ≠ .tin) (hs : Follows f e l s)
    (hr : mkCmd n inpipe s = some (r, s')) : MadeReads f e w k l type cmds s' r := by
  obtain ⟨s₁, hs₁, hr⟩ := Option.bind_eq_some_iff.mp hr
  obtain ⟨l₁, hl₁, hcmd, hread⟩ := skipCmdTokens_read hw hs hs₁
  obtain ⟨x, l₂, rfl, hx, hl₂⟩ := hl₁.cons
  split_ifs at hr with h1 h2 h3
  · cases hr
    refine ⟨h2, hl₁.input_eq (by rw [h2]; rfl), ?_⟩
    intro done
    rw [hread, h2]
    exact Keeper.read_end done rfl
  · cases hr
    have he : s'.la.endOfInput = true := by
      rcases h3 with h3 | h3
      · rw [h3]
        rfl
      · rw [h3]
        rfl
    refine ⟨he, ?_⟩
    intro done
    rw [hread, Keeper.read_end done he, hw.null h3, List.append_nil]
  · cases hr
    have he : s₁.la.endOfInput = false := by
      revert h2 h3
      cases s₁.la <;> simp [Token.endOfInput]
    exact .inr ⟨_, hl₁.print errMsg, he, hcmd, h1, hread⟩
  · have hword : s₁.la = .tword := not_not.mp h1
    obtain ⟨⟨r₂, s₂⟩, hs₂, hr⟩ := Option.bind_eq_some_iff.mp hr
    have hso : { newCmd s₁.word with inp := inpipe }.sofar = (Simple.new inpipe x).sofar f := by
      rw [← hx hword]
      rfl
    have hloop := cmdLoop_read (k := ⟨type, cmds, .new inpipe x, .tnil⟩) (hl₂ (by rw [hword]; rfl))
      (newCmd_ok hin s₁.word) hso hs₂
    have hfirst : ∀ done, trees.read w k done l = trees.read { newCmd s₁.word with inp := inpipe }.inside
        (some ⟨type, cmds, .new inpipe x, .tnil⟩) done l₂ := by
      intro done
      rw [hread, hword]
      exact hw.word done
    cases r₂ with
    | none =>
      cases hr
      exact .inl ⟨hloop.1, fun done => (hfirst done).trans (hloop.2 done)⟩
    | some c =>
      obtain ⟨l₃, k₃, hl₃, hok₃, hso₃, rfl, rfl, hin₃, hread₃⟩ := hloop
      have hthere : ∀ done, trees.read w k done l = trees.read c.inside (some k₃) done l₃ :=
        fun done => (hfirst done).trans (hread₃ done)
      rcases endCmd_read hl₃ hok₃ hso₃ hin₃ hr with ⟨rfl, hend, hnull⟩ | ⟨c', l₄, k₄, rfl, hl₄, hview, ht, hc, hread₄⟩
      · exact .inl ⟨hend, fun done => (hthere done).trans (hnull done)⟩
      · exact ⟨l₄, k₄, hl₄, hview, ht, hc, fun done => (hthere done).trans (hread₄ done)⟩

end Commands

/-! ### Pipes -/

section Pipes

variable {ω : Type*} {f : ω → Text} {e : Text}

/-- Behind the loop over the connectors: at a token that is no connector, or at the
end of the input, where the pipe ends in `End`. -/
def PipeReads (f : ω → Text) (e : Text) (w : Where) (k : Reading ω) (l : List (Token × ω)) (s : St) : Option Pipe → Prop
  | none => s.la.endOfInput = true ∧ ∀ done, trees.read w (some k) done l = done
  | some p =>
    p.atEnd = false ∧ (∃ l' k' out, Follows f e l' s ∧ p.view = (trees.close k').view f ∧ s.la.pipeToken = false ∧
      ∀ done, trees.read w (some k) done l = trees.read (.ended out) (some k') done l') ∨
    p.atEnd = true ∧ s.la = .tend ∧ s.input = e ∧ ∃ b, p.view = b.view f ∧ ∀ done, trees.read w (some k) done l = done ++ [b]

theorem PipeReads.step {w w' : Where} {k k' : Reading ω} {l l' : List (Token × ω)} {s : St} {r : Option Pipe}
    (h : PipeReads f e w' k' l' s r) (hr : ∀ done, trees.read w (some k) done l = trees.read w' (some k') done l') :
    PipeReads f e w k l s r := by
  cases r with
  | none => exact ⟨h.1, fun done => (hr done).trans (h.2 done)⟩
  | some p =>
    rcases h with ⟨hat, l₁, k₁, out, hl₁, hp, hla, hread⟩ | ⟨hat, hla, hin, b, hb, hread⟩
    · exact .inl ⟨hat, l₁, k₁, out, hl₁, hp, hla, fun done => (hr done).trans (hread done)⟩
    · exact .inr ⟨hat, hla, hin, b, hb, fun done => (hr done).trans (hread done)⟩

/-- A connector behind a command that has no output yet. -/
theorem read_connect {c : Cmd} {k : Reading ω} {t : Token} {x : ω} {l : List (Token × ω)} (hp : t.pipeToken = true)
    (hout : c.out = .tnil) (done : List (Built ω)) :
    trees.read c.ended (some k) done ((t, x) :: l) =
      trees.read .connected (some { k with type := t.ptype, cmd := { k.cmd with out := t.ptype.token } }) done l := by
  have hstep : c.ended.step t = some .connected := by simp [Cmd.ended, Where.step, Where.connect, hp, hout]
  have hf : c.ended.fresh t = false := by simp [Cmd.ended, Where.fresh, hp]
  rw [Keeper.read_take done (Token.endOfInput_of_pipeToken hp) hstep (by simp) hf, ← next_pipe hp]
  rfl

/-- **The loop over the connectors is the automaton up to the end of a pipe.** -/
theorem pipeLoop_read : ∀ {n : ℕ} {cmds : List Cmd} {c : Cmd} {l : List (Token × ω)} {k : Reading ω} {s s' : St}
    {r : Option Pipe}, Follows f e l s → c.view = k.cmd.view f → cmds.map Cmd.view = k.cmds.map (Simple.view f) →
    pipeLoop n k.type cmds c s = some (r, s') → PipeReads f e c.ended k l s' r
  | 0, _, _, _, _, _, _, _, _, _, _, hr => absurd hr (by simp [pipeLoop])
  | n + 1, cmds, c, l, k, s, s', r, hs, hc, hcmds, hr => by
    cases hp : s.la.pipeToken with
    | false =>
      rw [pipeLoop_stop hp] at hr
      cases hr
      refine .inl ⟨rfl, l, k, _, hs, ?_, hp, fun _ => rfl⟩
      simp [Pipe.view, Built.view, trees, hc, hcmds]
    | true =>
      have he := Token.endOfInput_of_pipeToken hp
      obtain ⟨x, l₁, rfl, -, hl₁⟩ := hs.cons
      by_cases hout : c.out = .tnil
      · rw [pipeLoop_join hp hout] at hr
        obtain ⟨⟨m, s₁⟩, hs₁, hr⟩ := Option.bind_eq_some_iff.mp hr
        have hstep := read_connect (k := k) (x := x) (l := l₁) hp hout
        have hc₁ : { c with out := s.la.ptype.token }.view = { k.cmd with out := s.la.ptype.token }.view f := by
          rw [view_setOut, hc]
          rfl
        have hcmds₁ : (cmds ++ [{ c with out := s.la.ptype.token }]).map Cmd.view =
            (k.cmds ++ [{ k.cmd with out := s.la.ptype.token }]).map (Simple.view f) := by
          rw [List.map_append, List.map_append, hcmds, List.map_singleton, List.map_singleton, hc₁]
        have hm := mkCmd_read (opens_connected { k with type := s.la.ptype, cmd := { k.cmd with out := s.la.ptype.token } })
          s.la.ptype.token_ne_tin (hl₁ he) hs₁
        cases m with
        | null =>
          obtain ⟨s₂, hs₂, heq⟩ := Option.map_eq_some_iff.mp hr
          cases heq
          refine ⟨skipToEnd_end hs₂, fun done => (hstep done).trans ?_⟩
          rcases hm with ⟨-, hread⟩ | ⟨l₂, hl₂, he₁, hcmd, hword, hread⟩
          · exact hread done
          · obtain ⟨y, l₃, rfl, -, -⟩ := hl₂.cons
            rw [hread done]
            exact Keeper.read_skipping done he₁ (by simp [Where.step, hcmd, hword])
        | empty =>
          obtain ⟨s₂, hs₂, heq⟩ := Option.map_eq_some_iff.mp hr
          cases heq
          exact ⟨skipToEnd_end hs₂, fun done => (hstep done).trans (hm.2 done)⟩
        | ended =>
          cases hr
          obtain ⟨hla, hin, hread⟩ := hm
          refine .inr ⟨rfl, hla, hin, _, ?_, fun done => (hstep done).trans (hread done)⟩
          simp only [Pipe.view, Built.view, trees, hcmds₁]
        | cmd d =>
          obtain ⟨l₂, k₂, hl₂, hd, ht, hks, hread⟩ := hm
          have hloop := pipeLoop_read (n := n) hl₂ hd (hks ▸ hcmds₁) (by rw [ht]; exact hr)
          exact hloop.step fun done => (hstep done).trans (hread done)
      · rw [pipeLoop_ambiguous hp hout] at hr
        obtain ⟨s₁, hs₁, heq⟩ := Option.map_eq_some_iff.mp hr
        cases heq
        refine ⟨skipToEnd_end hs₁, fun done => Keeper.read_skipping done he ?_⟩
        simp [Cmd.ended, Where.step, Where.connect, hp, hout]

/-- At an operator the loop of `mkPipe` ends with its first call. -/
theorem nextPipes_operator {s : St} {r : List Pipe × St} (h : s.la.isOperator = true) : ∀ {n : ℕ},
    nextPipes n s = some r → r = ([], s.print errMsg)
  | 0, hr => absurd hr (by simp [nextPipes])
  | 1, hr => by
    obtain ⟨he, -, -⟩ := Token.isOperator_eq_true.mp h
    rw [nextPipes, he, if_neg (by simp), mkPipe] at hr
    exact absurd hr (by simp)
  | 2, hr => by
    obtain ⟨he, -, -⟩ := Token.isOperator_eq_true.mp h
    rw [nextPipes, he, if_neg (by simp), mkPipe, mkCmd, skipCmdTokens] at hr
    exact absurd hr (by simp)
  | n + 3, hr => by
    obtain ⟨he, hcmd, hword⟩ := Token.isOperator_eq_true.mp h
    have hend : s.la ≠ .tend := by
      intro hla
      rw [hla] at he
      exact absurd he (by decide)
    have hnl : ¬ (s.la = .tnl ∨ s.la = .terror) := by
      rintro (hla | hla)
      all_goals
        rw [hla] at he
        exact absurd he (by decide)
    rw [nextPipes, he, if_neg (by simp), mkPipe, mkCmd, skipCmdTokens, hcmd, if_neg (by simp), Option.bind_some,
      if_pos hword, if_neg hend, if_neg hnl] at hr
    exact (Option.some.inj hr).symm

/-- Behind a call of `mkPipe`: the line is read to its end, or an operator is left
and only the first pipe of the line is kept. -/
def PipesRead (f : ω → Text) (e : Text) (l : List (Token × ω)) (ps : List Pipe) (s : St) : Prop :=
  ∃ rs : List (Built ω), ps.map Pipe.view = rs.map (Built.view f) ∧
    (s.la.endOfInput = true ∧ (∀ p ∈ ps, p.atEnd = true → s.input = e) ∧
        (∀ done, trees.read .start none done l = done ++ rs) ∨
      s.la.isOperator = true ∧ (∀ p ∈ ps, p.atEnd = false) ∧ ps.length ≤ 1 ∧
        ∀ done, trees.read .start none done l = (done ++ rs).take 1)

/-- Behind the loop of `mkPipe`, where a pipe is read already: no further pipe is
kept, if an operator is left. -/
def NextRead (f : ω → Text) (e : Text) (l : List (Token × ω)) (ps : List Pipe) (s : St) : Prop :=
  ∃ rs : List (Built ω), ps.map Pipe.view = rs.map (Built.view f) ∧
    (s.la.endOfInput = true ∧ (∀ p ∈ ps, p.atEnd = true → s.input = e) ∧
        (∀ done, trees.read .start none done l = done ++ rs) ∨
      s.la.isOperator = true ∧ ps = [] ∧ ∀ done, done ≠ [] → trees.read .start none done l = done.take 1)

/-- One pipe, at the end of the line. -/
theorem pipesRead_single {l : List (Token × ω)} {p : Pipe} {b : Built ω} {s : St} (he : s.la.endOfInput = true)
    (hin : p.atEnd = true → s.input = e) (hp : p.view = b.view f)
    (hr : ∀ done, trees.read .start none done l = done ++ [b]) : PipesRead f e l [p] s := by
  refine ⟨[b], by simp [hp], .inl ⟨he, ?_, hr⟩⟩
  intro q hq
  obtain rfl := List.mem_singleton.mp hq
  exact hin

/-- The pipes that follow one. -/
theorem NextRead.cons {l l' : List (Token × ω)} {p : Pipe} {b : Built ω} {ps : List Pipe} {s : St}
    (h : NextRead f e l' ps s) (hat : p.atEnd = false) (hp : p.view = b.view f)
    (hr : ∀ done, trees.read .start none done l = trees.read .start none (done ++ [b]) l') :
    PipesRead f e l (p :: ps) s := by
  obtain ⟨rs, hrs, ⟨he, hin, hread⟩ | ⟨hop, rfl, hread⟩⟩ := h
  · refine ⟨b :: rs, by simp [hp, hrs], .inl ⟨he, ?_, ?_⟩⟩
    · intro q hq hq'
      rcases List.mem_cons.mp hq with rfl | hq
      · exact absurd (hat.symm.trans hq') (by simp)
      · exact hin q hq hq'
    · intro done
      rw [hr, hread, List.append_assoc]
      rfl
  · refine ⟨[b], by simp [hp], .inr ⟨hop, ?_, by simp, ?_⟩⟩
    · intro q hq
      obtain rfl := List.mem_singleton.mp hq
      exact hat
    · intro done
      rw [hr, hread _ (by simp)]

mutual

/-- **A call of `mkPipe` is the automaton from a pipe on.** -/
theorem mkPipe_read : ∀ {n : ℕ} {l : List (Token × ω)} {s s' : St} {ps : List Pipe}, Follows f e l s →
    mkPipe n s = some (ps, s') → PipesRead f e l ps s'
  | 0, _, _, _, _, _, hr => absurd hr (by simp [mkPipe])
  | n + 1, l, s, s', ps, hs, hr => by
    rw [mkPipe] at hr
    obtain ⟨⟨m, s₁⟩, hs₁, hr⟩ := Option.bind_eq_some_iff.mp hr
    have hm := mkCmd_read opens_start (by decide) hs hs₁
    -- behind the end of the line there is nothing more
    have hstop : ∀ {s₂ s₃ : St} {qs : List Pipe}, s₂.la.endOfInput = true → nextPipes n s₂ = some (qs, s₃) →
        qs = [] ∧ s₃ = s₂ := by
      intro s₂ s₃ qs he hq
      cases n with
      | zero => exact absurd hq (by simp [nextPipes])
      | succ n =>
        rw [nextPipes_end he] at hq
        cases hq
        exact ⟨rfl, rfl⟩
    cases m with
    | null =>
      cases hr
      rcases hm with ⟨he, hread⟩ | ⟨l', hl', he, hcmd, hword, hread⟩
      · exact ⟨[], rfl, .inl ⟨he, by simp, fun done => (hread done).trans (List.append_nil done).symm⟩⟩
      · have hop := Token.isOperator_eq_true.mpr ⟨he, hcmd, hword⟩
        obtain ⟨x, l₂, rfl, -, -⟩ := hl'.cons
        refine ⟨[], rfl, .inr ⟨hop, by simp, by simp, ?_⟩⟩
        intro done
        rw [hread]
        exact Keeper.read_stop done he (start_step_operator hop)
    | empty =>
      cases hr
      exact ⟨[], rfl, .inl ⟨hm.1, by simp, fun done => (hm.2 done).trans (List.append_nil done).symm⟩⟩
    | ended =>
      obtain ⟨⟨qs, s₂⟩, hs₂, heq⟩ := Option.map_eq_some_iff.mp hr
      cases heq
      obtain ⟨hla, hin, hread⟩ := hm
      obtain ⟨rfl, rfl⟩ := hstop (by rw [hla]; rfl) hs₂
      exact pipesRead_single (by rw [hla]; rfl) (fun _ => hin) rfl hread
    | cmd c =>
      obtain ⟨⟨o, s₂⟩, hs₂, hr⟩ := Option.bind_eq_some_iff.mp hr
      obtain ⟨l₁, k₁, hl₁, hc, htype, hcmds, hread₁⟩ := hm
      have hloop := pipeLoop_read hl₁ hc (show List.map Cmd.view [] = _ by rw [hcmds]; rfl) (by rw [htype]; exact hs₂)
      cases o with
      | none =>
        cases hr
        refine ⟨[], rfl, .inl ⟨hloop.1, by simp, ?_⟩⟩
        intro done
        rw [hread₁, hloop.2, List.append_nil]
      | some p =>
        obtain ⟨⟨qs, s₃⟩, hs₃, heq⟩ := Option.map_eq_some_iff.mp hr
        cases heq
        rcases hloop with ⟨hat, l₂, k₂, out, hl₂, hp, hpipe, hread₂⟩ | ⟨-, hla, hin, b, hb, hread₂⟩
        · cases he : s₂.la.endOfInput with
          | true =>
            obtain ⟨rfl, rfl⟩ := hstop he hs₃
            refine pipesRead_single he (fun h => absurd (hat.symm.trans h) (by simp)) hp ?_
            intro done
            obtain ⟨x, l₃, rfl, -, -⟩ := hl₂.cons
            rw [hread₁, hread₂]
            exact Keeper.read_end done he
          | false =>
            refine (nextPipes_read hl₂ he hs₃).cons hat hp ?_
            intro done
            obtain ⟨x, l₃, rfl, -, -⟩ := hl₂.cons
            rw [hread₁, hread₂]
            exact Keeper.read_ended done he hpipe
        · obtain ⟨rfl, rfl⟩ := hstop (by rw [hla]; rfl) hs₃
          exact pipesRead_single (by rw [hla]; rfl) (fun _ => hin) hb fun done => (hread₁ done).trans (hread₂ done)

theorem nextPipes_read : ∀ {n : ℕ} {l : List (Token × ω)} {s s' : St} {ps : List Pipe}, Follows f e l s →
    s.la.endOfInput = false → nextPipes n s = some (ps, s') → NextRead f e l ps s'
  | 0, _, _, _, _, _, _, hr => absurd hr (by simp [nextPipes])
  | n + 1, l, s, s', ps, hs, he, hr => by
    rw [nextPipes, he, if_neg (by simp)] at hr
    obtain ⟨⟨qs, s₁⟩, hs₁, hr⟩ := Option.bind_eq_some_iff.mp hr
    obtain ⟨rs, hrs, ⟨he₁, hin, hread⟩ | ⟨hop, -, hlen, hread⟩⟩ := mkPipe_read hs hs₁
    · rw [if_pos he₁, ite_self] at hr
      cases hr
      exact ⟨rs, hrs, .inl ⟨he₁, hin, hread⟩⟩
    · have he₁ := (Token.isOperator_eq_true.mp hop).1
      -- a pipe that was read is not the first one, and is lost
      have hlost : ∀ done, done ≠ [] → trees.read .start none done l = done.take 1 := by
        intro done hne
        rw [hread, List.take_append_of_le_length (List.length_pos_of_ne_nil hne)]
      by_cases hnil : qs = []
      · rw [if_pos hnil] at hr
        cases hr
        exact ⟨[], by rw [hnil]; rfl, .inr ⟨hop, hnil, hlost⟩⟩
      · rw [if_neg hnil, he₁, if_neg (by simp)] at hr
        have heq := nextPipes_operator hop hr
        cases heq
        exact ⟨[], rfl, .inr ⟨hop, rfl, hlost⟩⟩

end

end Pipes

/-- **What `parse` returns is what the automaton reads** from the tokens of the
line, whatever stands for its words. At `End`, what is left of the input is what
follows the line. -/
theorem parse_read {ω : Type*} {f : ω → Text} {e : Text} {l : List (Token × ω)} {s s' : St} {ps : List Pipe}
    (h : Follows f e l (next s)) (hr : parse s = some (ps, s')) :
    ps.map Pipe.view = (trees.read .start none [] l).map (Built.view f) ∧ ∀ p ∈ ps, p.atEnd = true → s'.input = e := by
  obtain ⟨rs, hrs, ⟨-, hin, hread⟩ | ⟨-, hat, hlen, hread⟩⟩ := mkPipe_read h hr
  · exact ⟨by rw [hread, hrs, List.nil_append], hin⟩
  · refine ⟨?_, fun p hp h => absurd ((hat p hp).symm.trans h) (by simp)⟩
    have hlen' : rs.length ≤ 1 := by
      have := congrArg List.length hrs
      simp only [List.length_map] at this
      omega
    rw [hread, List.nil_append, List.take_of_length_le hlen', hrs]

end Shell
end Csc501

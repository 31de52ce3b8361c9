/-
# What is printed about a line

The parser has a message for each of its errors (`faulty`), and the lexer for most of
the tokens that are none: a quote that is not closed, a word that is too long. A call
of `parse` prints something exactly if one of them does (`parse_printed`). There is one
error without a message. Where the input ends in a word, or goes on there with a byte
from 128 on, `ReadChar` returns a bare `Terror`, and behind a word `mkCmd` drops the
command for it without a message of its own.

Key definitions: `faulty`, `lineMessage`, `Hears`, `Complained`, `Unheard`.
Key theorems: `cmdLoop_reports`, `mkCmd_reports`, `pipeLoop_reports`, `mkPipe_reports`, `parse_printed`.
-/
import Csc501.Shell.Reader

namespace Csc501
namespace Shell

open Lib

/-! ### Messages -/

/-- The parser complains of the token that ends the line. -/
def Where.complains : Where → Token → Bool
  | .connected, t => t ≠ .tend
  | .redirect _ _, _ => true
  | _, _ => false

/-- From a place in it, the line has a token that the parser complains of. -/
def faulty {ω : Type*} : Where → List (Token × ω) → Bool
  | _, [] => false
  | w, (t, _) :: l =>
    if t.endOfInput then w.complains t
    else
      match w.step t with
      | none => true
      | some w' => w' = .skipping || faulty w' l

/-- What the lexer prints from the token ahead on, itself excluded. -/
def messageFrom : ℕ → St → Text
  | 0, _ => []
  | n + 1, s => if s.la.endOfInput then [] else (nextToken s.input).printed ++ messageFrom n (next s)

/-- What the lexer prints about the line. -/
def lineMessage (s : St) : Text := (nextToken s.input).printed ++ messageFrom (s.input.length + 1) (next s)

/-- The tokens from the one ahead on are `l`, and `total` is printed when the one that
ends the line is ahead, if only the lexer prints until then. -/
inductive Hears {ω : Type*} (total : Text) : List (Token × ω) → St → Prop
  | last {s : St} {x : ω} : s.la.endOfInput = true → s.printed = total → Hears total [(s.la, x)] s
  | more {s : St} {x : ω} {l : List (Token × ω)} : s.la.endOfInput = false → Hears total l (next s) →
      Hears total ((s.la, x) :: l) s

section Tokens

variable {ω : Type*} {w w' : Where} {t : Token} {x : ω} {l : List (Token × ω)}

theorem faulty_end (h : t.endOfInput = true) : faulty w ((t, x) :: l) = w.complains t := by
  rw [faulty, if_pos h]

theorem faulty_stop (h : t.endOfInput = false) (hw : w.step t = none) : faulty w ((t, x) :: l) = true := by
  rw [faulty, h, if_neg (by simp), hw]

theorem faulty_skipping (h : t.endOfInput = false) (hw : w.step t = some .skipping) : faulty w ((t, x) :: l) = true := by
  rw [faulty, h, if_neg (by simp), hw]
  rfl

theorem faulty_step (h : t.endOfInput = false) (hw : w.step t = some w') (hne : w' ≠ .skipping) :
    faulty w ((t, x) :: l) = faulty w' l := by
  rw [faulty, h, if_neg (by simp), hw]
  simp [hne]

/-- Something else where the name of a file is wanted. -/
theorem faulty_noFile {inp out : Bool} (h : t ≠ .tword) : faulty (.redirect inp out) ((t, x) :: l) = true := by
  cases he : t.endOfInput with
  | true => exact faulty_end he
  | false => exact faulty_skipping he (by simp [Where.step, h])

/-- Behind a command a token that is no connector is read as at the start. -/
theorem faulty_ended {out : Bool} (hp : t.pipeToken = false) :
    faulty (.ended out) ((t, x) :: l) = faulty .start ((t, x) :: l) := by
  rw [faulty, faulty]
  simp [Where.step, hp, Where.complains]

theorem Hears.cons {total : Text} {s : St} (h : Hears total l s) : ∃ x l', l = (s.la, x) :: l' ∧
    (s.la.endOfInput = false → Hears total l' (next s)) := by
  cases h with
  | @last _ x he => exact ⟨x, [], rfl, fun hn => absurd (he.symm.trans hn) (by simp)⟩
  | @more _ x l hn hl => exact ⟨x, l, rfl, fun _ => hl⟩

theorem Hears.printed_eq {total : Text} {s : St} (h : Hears total l s) (he : s.la.endOfInput = true) :
    s.printed = total := by
  cases h with
  | last _ hp => exact hp
  | more hn => exact absurd (he.symm.trans hn) (by simp)

end Tokens

theorem hears_tokensFrom : ∀ {n : ℕ} {s : St}, s.size < n →
    Hears (s.printed ++ messageFrom n s) (tokensFrom n s) s
  | 0, _, h => absurd h (Nat.not_lt_zero _)
  | n + 1, s, h => by
    rw [tokensFrom, messageFrom]
    cases he : s.la.endOfInput with
    | true => exact .last he (List.append_nil _).symm
    | false =>
      have hlt := size_next_lt he
      have hnext := hears_tokensFrom (show (next s).size < n by omega)
      rw [if_neg (by simp), ← List.append_assoc]
      exact .more he hnext

theorem hears_line (s : St) : Hears (s.printed ++ lineMessage s) (lineTokens s) (next s) := by
  rw [lineMessage, ← List.append_assoc]
  exact hears_tokensFrom (Nat.lt_succ_of_le (size_next_input s))

/-! ### Parts of a call -/

/-- The parser has complained of a token. -/
structure Complained {ω : Type*} (w : Where) (l : List (Token × ω)) (s s' : St) : Prop where
  faulty : faulty w l = true
  printed : s.printed.length < s'.printed.length
  ahead : s'.la.endOfInput = true ∨ s'.la.isOperator = true

/-- The parser is at the end of the line, and has had nothing to say. -/
structure Unheard {ω : Type*} (total : Text) (w : Where) (l : List (Token × ω)) (s' : St) : Prop where
  faulty : faulty w l = false
  printed : s'.printed = total
  ends : s'.la.endOfInput = true

section Parts

variable {ω : Type*} {total : Text} {w w' : Where} {l l' : List (Token × ω)} {s s₁ s' : St}

theorem Complained.of (h : Complained w' l' s₁ s') (hs : s.printed.length ≤ s₁.printed.length)
    (hl : Shell.faulty w l = Shell.faulty w' l') : Complained w l s s' :=
  ⟨hl.trans h.faulty, hs.trans_lt h.printed, h.ahead⟩

theorem Unheard.of (h : Unheard total w' l' s') (hl : Shell.faulty w l = Shell.faulty w' l') : Unheard total w l s' :=
  ⟨hl.trans h.faulty, h.printed, h.ends⟩

/-- A message, with the rest of the line skipped behind it. -/
theorem complained_skip {n : ℕ} {text : String} (ht : text.toList ≠ []) (hl : faulty w l = true)
    (hs : skipLine n (s.print text) = some s') : Complained w l s s' :=
  ⟨hl, (print_grows s ht).trans_le (skipLine_grows hs), .inl (skipToEnd_end hs)⟩

/-- Behind the loop over a command. -/
def LoopReports (total : Text) (w : Where) (l : List (Token × ω)) (s s' : St) : Option Cmd → Prop
  | none => Complained w l s s' ∧ s'.la.endOfInput = true
  | some c => s.printed.length ≤ s'.printed.length ∧ s'.la.inCmd = false ∧
      ∃ l' : List (Token × ω), Hears total l' s' ∧ faulty w l = faulty c.inside l'

theorem LoopReports.step {r : Option Cmd} (h : LoopReports total w' l' s₁ s' r)
    (hs : s.printed.length ≤ s₁.printed.length) (hl : faulty w l = faulty w' l') : LoopReports total w l s s' r := by
  cases r with
  | none => exact ⟨h.1.of hs hl, h.2⟩
  | some c =>
    obtain ⟨hle, hin, l₁, hl₁, heq⟩ := h
    exact ⟨hs.trans hle, hin, l₁, hl₁, hl.trans heq⟩

/-- A redirection, with what follows it. -/
theorem redirect_reports {n : ℕ} {text : String} (ht : text.toList ≠ []) {r : Option Cmd} {inp out : Bool} {c : Cmd}
    (hs : Hears total l s) (hc : c.inside = .inside inp out)
    (hr : (if s.la ≠ .tword then (skipLine n (s.print text)).map fun s => (none, s) else cmdLoop n c (next s)) =
      some (r, s'))
    (hword : ∀ l₂ : List (Token × ω), Hears total l₂ (next s) → cmdLoop n c (next s) = some (r, s') →
      LoopReports total c.inside l₂ (next s) s' r) :
    LoopReports total (.redirect inp out) l s s' r := by
  obtain ⟨y, l₂, rfl, hl⟩ := hs.cons
  split_ifs at hr with hla
  · obtain ⟨s₁, hs₁, heq⟩ := Option.map_eq_some_iff.mp hr
    cases heq
    exact ⟨complained_skip ht (faulty_noFile hla) hs₁, skipToEnd_end hs₁⟩
  · have he : s.la.endOfInput = false := by
      rw [not_not.mp hla]
      rfl
    refine (hword l₂ (hl he) hr).step (next_grows s) (faulty_step he ?_ (by simp [hc]))
    rw [hc, not_not.mp hla]
    rfl

/-- **The loop over a command complains of each error in it.** -/
theorem cmdLoop_reports : ∀ {n : ℕ} {c : Cmd} {l : List (Token × ω)} {s s' : St} {r : Option Cmd},
    Hears total l s → cmdLoop n c s = some (r, s') → LoopReports total c.inside l s s' r
  | 0, _, _, _, _, _, _, hr => absurd hr (by simp [cmdLoop])
  | n + 1, c, l, s, s', r, hs, hr => by
    rcases s.la.inCmd_cases with hla | hla | hla | hla
    · -- an input, from a file
      have he : s.la.endOfInput = false := by
        rw [hla]
        rfl
      rw [cmdLoop_in hla] at hr
      obtain ⟨x, l', rfl, hl⟩ := hs.cons
      by_cases h1 : c.inp ≠ .tnil
      · rw [if_pos h1] at hr
        obtain ⟨s₁, hs₁, heq⟩ := Option.map_eq_some_iff.mp hr
        cases heq
        exact ⟨complained_skip (by simp) (faulty_skipping he (hla ▸ inside_step_in_again h1)) hs₁, skipToEnd_end hs₁⟩
      · rw [if_neg h1] at hr
        have hstep := inside_step_in (not_not.mp h1)
        rw [← hla] at hstep
        exact (redirect_reports (by simp [errMsg]) (hl he) rfl hr fun l₂ hl₂ hr => cmdLoop_reports hl₂ hr).step
          (next_grows s) (faulty_step he hstep (by simp))
    · -- an output, to a file
      have he := Token.endOfInput_of_toFile hla
      obtain ⟨-, -, hnil⟩ := Token.toFile_ne hla
      rw [cmdLoop_out hla] at hr
      obtain ⟨x, l', rfl, hl⟩ := hs.cons
      by_cases h1 : c.out ≠ .tnil
      · rw [if_pos h1] at hr
        obtain ⟨s₁, hs₁, heq⟩ := Option.map_eq_some_iff.mp hr
        cases heq
        exact ⟨complained_skip (by simp) (faulty_skipping he (inside_step_out_again hla h1)) hs₁, skipToEnd_end hs₁⟩
      · rw [if_neg h1] at hr
        have hplace : { c with out := s.la, outfile := some (cstr (next s).word) }.inside =
            .inside (c.inp ≠ .tnil) true := by
          simp [Cmd.inside, hnil]
        exact (redirect_reports (by simp [errMsg]) (hl he) hplace hr fun l₂ hl₂ hr => cmdLoop_reports hl₂ hr).step
          (next_grows s) (faulty_step he (inside_step_out hla (not_not.mp h1)) (by simp))
    · -- a word
      rw [cmdLoop_word hla] at hr
      obtain ⟨c₁, hc₁, hr⟩ := Option.bind_eq_some_iff.mp hr
      obtain ⟨x, l', rfl, hl⟩ := hs.cons
      have he : s.la.endOfInput = false := by
        rw [hla]
        rfl
      have hstep : c.inside.step s.la = some c₁.inside := by
        rw [hla, addArg_inside hc₁]
        rfl
      exact (cmdLoop_reports (hl he) hr).step (next_grows s) (faulty_step he hstep (by simp [Cmd.inside]))
    · -- the end of the command
      rw [cmdLoop_stop hla] at hr
      cases hr
      exact ⟨le_rfl, hla, l, hs, rfl⟩

/-- Behind a call of `mkCmd`, by what it returns. -/
def MadeReports (total : Text) (w : Where) (l : List (Token × ω)) (s s' : St) : Made → Prop
  | .null => Complained w l s s' ∨ Unheard total w l s'
  | .empty => s.printed.length ≤ s'.printed.length ∧ s'.la.endOfInput = true ∧ s'.printed = total ∧
      faulty w l = decide (w = .connected)
  | .ended => s.printed.length ≤ s'.printed.length ∧ s'.la = .tend ∧ Unheard total w l s'
  | .cmd c => s.printed.length ≤ s'.printed.length ∧ ∃ l' : List (Token × ω), Hears total l' s' ∧
      faulty w l = faulty c.ended l'

/-- The end of a command, of which there is nothing to say. -/
theorem endCmd_reports {c : Cmd} {r : Made} (hs : Hears total l s) (hin : s.la.inCmd = false)
    (hr : endCmd c s = some (r, s')) : r ≠ .empty ∧ r ≠ .ended ∧ MadeReports total c.inside l s s' r := by
  obtain ⟨x, l', rfl, hl⟩ := hs.cons
  have hbehind : ∀ {t : Token}, s.la = t → t.cmdToken = true →
      faulty c.inside ((s.la, x) :: l') = faulty c.ended l' ∧ Hears total l' (next s) := by
    rintro t hla ht
    have he : s.la.endOfInput = false := Token.endOfInput_of_cmdToken (hla ▸ ht)
    refine ⟨faulty_step he ?_ (by simp [Cmd.ended]), hl he⟩
    rw [hla]
    revert ht
    cases t <;> simp [Token.cmdToken, Cmd.inside, Cmd.ended, Where.step, Token.toFile]
  unfold endCmd at hr
  split_ifs at hr with h1 h2 h3
  · cases hr
    have he : s.la.endOfInput = true := by
      rw [h1]
      rfl
    exact ⟨by simp, by simp, .inr ⟨faulty_end he, hs.printed_eq he, he⟩⟩
  all_goals
    obtain ⟨c', hc', heq⟩ := Option.map_eq_some_iff.mp hr
    cases heq
    refine ⟨by simp, by simp, ?_⟩
  · obtain ⟨hf, hl'⟩ := hbehind h2 rfl
    exact ⟨next_grows s, l', hl', by rw [setArg_ended hc', hf]⟩
  · obtain ⟨hf, hl'⟩ := hbehind h3 rfl
    exact ⟨next_grows s, l', hl', by rw [setArg_ended hc', hf]; rfl⟩
  · refine ⟨le_rfl, _, hs, ?_⟩
    have hcmd : s.la.cmdToken = false := by
      revert h2 h3
      cases s.la <;> simp [Token.cmdToken]
    rw [setArg_ended hc', faulty, faulty]
    revert hin hcmd
    unfold Cmd.inside Cmd.ended
    cases s.la <;> simp [Where.step, Where.begin, Where.complains, Token.inCmd, Token.toFile, Token.cmdToken,
      Token.pipeToken, Token.endOfInput]

/-- A place where a command can begin. -/
def Where.opens (w : Where) (inpipe : Token) : Prop := w = .start ∧ inpipe = .tnil ∨ w = .connected ∧ inpipe ≠ .tnil

section Opens

variable {inpipe t : Token} {x : ω}

theorem Where.opens.separator (hw : w.opens inpipe) (h : t.cmdToken = true) :
    faulty w ((t, x) :: l) = faulty w l := by
  have he := Token.endOfInput_of_cmdToken h
  rcases hw with ⟨rfl, -⟩ | ⟨rfl, -⟩
  · exact faulty_step he (by simp [Where.step, Where.begin, h]) (by simp)
  · exact faulty_step he (by simp [Where.step, h]) (by simp)

theorem Where.opens.operator (hw : w.opens inpipe) (h : t.isOperator = true) : faulty w ((t, x) :: l) = true := by
  obtain ⟨he, hcmd, hword⟩ := Token.isOperator_eq_true.mp h
  rcases hw with ⟨rfl, -⟩ | ⟨rfl, -⟩
  · exact faulty_stop he (start_step_operator h)
  · exact faulty_skipping he (by simp [Where.step, hcmd, hword])

theorem Where.opens.word (hw : w.opens inpipe) {text : Text} :
    faulty w ((.tword, x) :: l) = faulty { newCmd text with inp := inpipe }.inside l := by
  apply faulty_step rfl _ (by simp [Cmd.inside])
  rcases hw with ⟨rfl, rfl⟩ | ⟨rfl, hne⟩
  · rfl
  · simp [Where.step, Token.cmdToken, Cmd.inside, newCmd, hne]

end Opens

/-- The separators in front of a command. -/
theorem skipCmdTokens_reports {inpipe : Token} (hw : w.opens inpipe) : ∀ {n : ℕ} {l : List (Token × ω)} {s s' : St},
    Hears total l s → skipCmdTokens n s = some s' →
    ∃ l' : List (Token × ω), Hears total l' s' ∧ s'.la.cmdToken = false ∧ faulty w l = faulty w l'
  | 0, _, _, _, _, hr => absurd hr (by simp [skipCmdTokens])
  | n + 1, l, s, s', hs, hr => by
    rw [skipCmdTokens] at hr
    split_ifs at hr with ht
    · obtain ⟨x, l₁, rfl, hl⟩ := hs.cons
      obtain ⟨l', hl', hcmd, hread⟩ := skipCmdTokens_reports hw (hl (Token.endOfInput_of_cmdToken ht)) hr
      exact ⟨l', hl', hcmd, (hw.separator ht).trans hread⟩
    · cases hr
      exact ⟨l, hs, Bool.eq_false_iff.mpr ht, rfl⟩

/-- **A call of `mkCmd`.** -/
theorem mkCmd_reports {n : ℕ} {inpipe : Token} {r : Made} (hw : w.opens inpipe) (hs : Hears total l s)
    (hr : mkCmd n inpipe s = some (r, s')) : MadeReports total w l s s' r := by
  obtain ⟨s₁, hs₁, hr⟩ := Option.bind_eq_some_iff.mp hr
  have hle := skipCmdTokens_grows hs₁
  obtain ⟨l₁, hl₁, hcmd, hskip⟩ := skipCmdTokens_reports hw hs hs₁
  obtain ⟨x, l₂, rfl, hl₂⟩ := hl₁.cons
  have hend : ∀ {t : Token}, s₁.la = t → t.endOfInput = true →
      s₁.la.endOfInput = true ∧ s₁.printed = total ∧ faulty w l = w.complains t := by
    rintro t hla ht
    have he : s₁.la.endOfInput = true := hla ▸ ht
    exact ⟨he, hl₁.printed_eq he, by rw [hskip, faulty_end he, hla]⟩
  split_ifs at hr with h1 h2 h3
  · cases hr
    obtain ⟨he, hp, hf⟩ := hend h2 rfl
    refine ⟨hle, h2, hf.trans ?_, hp, he⟩
    rcases hw with ⟨rfl, -⟩ | ⟨rfl, -⟩ <;> rfl
  · cases hr
    rcases h3 with h3 | h3
    all_goals
      obtain ⟨he, hp, hf⟩ := hend h3 rfl
      refine ⟨hle, he, hp, hf.trans ?_⟩
      rcases hw with ⟨rfl, -⟩ | ⟨rfl, -⟩ <;> rfl
  · -- an operator
    cases hr
    have he : s₁.la.endOfInput = false := by
      revert h2 h3
      cases s₁.la <;> simp [Token.endOfInput]
    have hop : s₁.la.isOperator = true := Token.isOperator_eq_true.mpr ⟨he, hcmd, h1⟩
    exact .inl ⟨hskip.trans (hw.operator hop), hle.trans_lt (print_grows s₁ (by simp [errMsg])), .inr hop⟩
  · -- a command
    obtain ⟨⟨r₂, s₂⟩, hs₂, hr⟩ := Option.bind_eq_some_iff.mp hr
    have hword := not_not.mp h1
    have he : s₁.la.endOfInput = false := by
      rw [hword]
      rfl
    have hloop := cmdLoop_reports (hl₂ he) hs₂
    have hfirst : faulty w l = faulty { newCmd s₁.word with inp := inpipe }.inside l₂ := by
      rw [hskip, hword]
      exact hw.word
    have hgrow := hle.trans (next_grows s₁)
    cases r₂ with
    | none =>
      cases hr
      exact .inl (hloop.1.of hgrow hfirst)
    | some c =>
      obtain ⟨hgrow₂, hin, l₃, hl₃, hf⟩ := hloop
      obtain ⟨hempty, hended, hmade⟩ := endCmd_reports hl₃ hin hr
      have hgrow' := hgrow.trans hgrow₂
      have hfirst' := hfirst.trans hf
      cases r with
      | null => exact hmade.imp (fun h => h.of hgrow' hfirst') fun h => h.of hfirst'
      | empty => exact absurd rfl hempty
      | ended => exact absurd rfl hended
      | cmd c' =>
        obtain ⟨hgrow₃, l₄, hl₄, hf₄⟩ := hmade
        exact ⟨hgrow'.trans hgrow₃, l₄, hl₄, hfirst'.trans hf₄⟩

/-- Behind the loop over the connectors. -/
def PipeReports (total : Text) (w : Where) (l : List (Token × ω)) (s s' : St) : Option Pipe → Prop
  | none => s'.la.endOfInput = true ∧ (Complained w l s s' ∨ Unheard total w l s')
  | some _ => s.printed.length ≤ s'.printed.length ∧ (s'.la.pipeToken = false ∧
      (∃ (l' : List (Token × ω)) (out : Bool), Hears total l' s' ∧ faulty w l = faulty (.ended out) l') ∨
      s'.la = .tend ∧ Unheard total w l s')

theorem PipeReports.step {r : Option Pipe} (h : PipeReports total w' l' s₁ s' r)
    (hs : s.printed.length ≤ s₁.printed.length) (hl : faulty w l = faulty w' l') : PipeReports total w l s s' r := by
  cases r with
  | none => exact ⟨h.1, h.2.imp (fun h => h.of hs hl) fun h => h.of hl⟩
  | some p =>
    obtain ⟨hle, ⟨hp, l₁, out, hl₁, heq⟩ | ⟨hla, hun⟩⟩ := h
    · exact ⟨hs.trans hle, .inl ⟨hp, l₁, out, hl₁, hl.trans heq⟩⟩
    · exact ⟨hs.trans hle, .inr ⟨hla, hun.of hl⟩⟩

/-- At the end of the line there is nothing to skip. -/
theorem skipToEnd_ends {n : ℕ} (he : s.la.endOfInput = true) (hs : skipToEnd n s = some s') : s' = s := by
  cases n with
  | zero => exact absurd hs (by simp [skipToEnd])
  | succ n =>
    rw [skipToEnd, if_pos he] at hs
    exact (Option.some.inj hs).symm

/-- **The loop over the connectors.** -/
theorem pipeLoop_reports : ∀ {n : ℕ} {type : Ptype} {cmds : List Cmd} {c : Cmd} {l : List (Token × ω)} {s s' : St}
    {r : Option Pipe}, Hears total l s → pipeLoop n type cmds c s = some (r, s') → PipeReports total c.ended l s s' r
  | 0, _, _, _, _, _, _, _, _, hr => absurd hr (by simp [pipeLoop])
  | n + 1, type, cmds, c, l, s, s', r, hs, hr => by
    cases hp : s.la.pipeToken with
    | false =>
      rw [pipeLoop_stop hp] at hr
      cases hr
      exact ⟨le_rfl, .inl ⟨hp, l, _, hs, rfl⟩⟩
    | true =>
      have he := Token.endOfInput_of_pipeToken hp
      obtain ⟨x, l₁, rfl, hl₁⟩ := hs.cons
      by_cases hout : c.out = .tnil
      · rw [pipeLoop_join hp hout] at hr
        obtain ⟨⟨m, s₁⟩, hs₁, hr⟩ := Option.bind_eq_some_iff.mp hr
        have hstep : faulty c.ended ((s.la, x) :: l₁) = faulty .connected l₁ :=
          faulty_step he (by simp [Cmd.ended, Where.step, Where.connect, hp, hout]) (by simp)
        have hne : s.la.ptype.token ≠ .tnil := by
          unfold Token.ptype
          split_ifs <;> simp [Ptype.token]
        have hm := mkCmd_reports (.inr ⟨rfl, hne⟩) (hl₁ he) hs₁
        have hgrow := next_grows s
        cases m with
        | null =>
          obtain ⟨s₂, hs₂, heq⟩ := Option.map_eq_some_iff.mp hr
          cases heq
          refine ⟨skipToEnd_end hs₂, ?_⟩
          rcases hm with hm | hm
          · have h := hm.of hgrow hstep
            exact .inl ⟨h.faulty, h.printed.trans_le (skipToEnd_grows hs₂), .inl (skipToEnd_end hs₂)⟩
          · rw [skipToEnd_ends hm.ends hs₂]
            exact .inr (hm.of hstep)
        | empty =>
          obtain ⟨s₂, hs₂, heq⟩ := Option.map_eq_some_iff.mp hr
          cases heq
          obtain ⟨hle, -, -, hf⟩ := hm
          have hprint : s₁.printed.length < (s₁.print "Invalid null command.\n").printed.length :=
            print_grows s₁ (by simp)
          have hgrows := hprint.trans_le (skipToEnd_grows hs₂)
          refine ⟨skipToEnd_end hs₂, .inl ⟨hstep.trans hf, ?_, .inl (skipToEnd_end hs₂)⟩⟩
          omega
        | ended =>
          cases hr
          exact ⟨hgrow.trans hm.1, .inr ⟨hm.2.1, hm.2.2.of hstep⟩⟩
        | cmd d =>
          obtain ⟨hle, l₂, hl₂, hf⟩ := hm
          exact (pipeLoop_reports hl₂ hr).step (hgrow.trans hle) (hstep.trans hf)
      · rw [pipeLoop_ambiguous hp hout] at hr
        obtain ⟨s₁, hs₁, heq⟩ := Option.map_eq_some_iff.mp hr
        cases heq
        refine ⟨skipToEnd_end hs₁, .inl (complained_skip (by simp) (faulty_skipping he ?_) hs₁)⟩
        simp [Cmd.ended, Where.step, Where.connect, hp, hout]

mutual

/-- **A call of `mkPipe`** has complained of a token of the line, or has read it to its
end without anything to say. -/
theorem mkPipe_reports : ∀ {n : ℕ} {l : List (Token × ω)} {s s' : St} {ps : List Pipe}, Hears total l s →
    mkPipe n s = some (ps, s') → Complained .start l s s' ∨ Unheard total .start l s'
  | 0, _, _, _, _, _, hr => absurd hr (by simp [mkPipe])
  | n + 1, l, s, s', ps, hs, hr => by
    rw [mkPipe] at hr
    obtain ⟨⟨m, s₁⟩, hs₁, hr⟩ := Option.bind_eq_some_iff.mp hr
    have hm := mkCmd_reports (.inl ⟨rfl, rfl⟩) hs hs₁
    -- behind the end of the line there is nothing more
    have hstop : ∀ {s₂ s₃ : St} {qs : List Pipe}, s₂.la.endOfInput = true → nextPipes n s₂ = some (qs, s₃) →
        s₃ = s₂ := by
      intro s₂ s₃ qs he hq
      cases n with
      | zero => exact absurd hq (by simp [nextPipes])
      | succ n =>
        rw [nextPipes_end he] at hq
        cases hq
        rfl
    cases m with
    | null =>
      cases hr
      exact hm
    | empty =>
      cases hr
      exact .inr ⟨hm.2.2.2, hm.2.2.1, hm.2.1⟩
    | ended =>
      obtain ⟨⟨qs, s₂⟩, hs₂, heq⟩ := Option.map_eq_some_iff.mp hr
      cases heq
      rw [hstop hm.2.2.ends hs₂]
      exact .inr hm.2.2
    | cmd c =>
      obtain ⟨⟨o, s₂⟩, hs₂, hr⟩ := Option.bind_eq_some_iff.mp hr
      obtain ⟨hle, l₁, hl₁, hf⟩ := hm
      have hloop := (pipeLoop_reports hl₁ hs₂).step hle hf
      cases o with
      | none =>
        cases hr
        exact hloop.2
      | some p =>
        obtain ⟨⟨qs, s₃⟩, hs₃, heq⟩ := Option.map_eq_some_iff.mp hr
        cases heq
        obtain ⟨hle₂, ⟨hp, l₂, out, hl₂, hf₂⟩ | ⟨-, hun⟩⟩ := hloop
        · cases he : s₂.la.endOfInput with
          | true =>
            obtain ⟨x, l₃, rfl, -⟩ := hl₂.cons
            rw [hstop he hs₃]
            exact .inr ⟨hf₂.trans (faulty_end he), hl₂.printed_eq he, he⟩
          | false =>
            have hnext : Complained (.ended out) l₂ s₂ s₃ ∨ Unheard total (.ended out) l₂ s₃ :=
              nextPipes_reports hl₂ hp he hs₃
            exact hnext.imp (fun h => h.of hle₂ hf₂) fun h => h.of hf₂
        · rw [hstop hun.ends hs₃]
          exact .inr hun

theorem nextPipes_reports : ∀ {n : ℕ} {out : Bool} {l : List (Token × ω)} {s s' : St} {ps : List Pipe},
    Hears total l s → s.la.pipeToken = false → s.la.endOfInput = false → nextPipes n s = some (ps, s') →
    Complained (.ended out) l s s' ∨ Unheard total (.ended out) l s'
  | 0, _, _, _, _, _, _, _, _, hr => absurd hr (by simp [nextPipes])
  | n + 1, out, l, s, s', ps, hs, hp, he, hr => by
    rw [nextPipes, he, if_neg (by simp)] at hr
    obtain ⟨⟨qs, s₁⟩, hs₁, hr⟩ := Option.bind_eq_some_iff.mp hr
    obtain ⟨x, l', rfl, -⟩ := hs.cons
    have hstart : faulty (.ended out) ((s.la, x) :: l') = faulty .start ((s.la, x) :: l') := faulty_ended hp
    rcases mkPipe_reports hs hs₁ with hm | hm
    · rcases hm.ahead with he₁ | hop
      · rw [if_pos he₁, ite_self] at hr
        cases hr
        exact .inl (hm.of le_rfl hstart)
      · split_ifs at hr with h1 h2
        · cases hr
          exact .inl (hm.of le_rfl hstart)
        · cases hr
          exact .inl (hm.of le_rfl hstart)
        · -- the loop goes on at the operator, and complains again
          cases nextPipes_operator hop hr
          have h := hm.of le_rfl hstart
          exact .inl ⟨h.faulty, h.printed.trans (print_grows s₁ (by simp [errMsg])), .inr hop⟩
    · rw [if_pos hm.ends, ite_self] at hr
      cases hr
      exact .inr (hm.of hstart)

end

end Parts

/-- **A call of `parse` prints nothing exactly if** the parser complains of no token of
the line, and the lexer has no message about one. -/
theorem parse_printed {s s' : St} {ps : List Pipe} (hr : parse s = some (ps, s')) :
    s'.printed = s.printed ↔ faulty .start (lineTokens s) = false ∧ lineMessage s = [] := by
  rcases mkPipe_reports (hears_line s) hr with h | h
  · have hlt := (next_grows s).trans_lt h.printed
    refine iff_of_false ?_ ?_
    · intro heq
      rw [heq] at hlt
      exact lt_irrefl _ hlt
    · rintro ⟨hf, -⟩
      exact absurd (h.faulty.symm.trans hf) (by simp)
  · rw [h.printed, h.faulty]
    simp

end Shell
end Csc501

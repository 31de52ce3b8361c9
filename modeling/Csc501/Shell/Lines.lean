/-
# One call of the parser, one line

A call of `parse` is to read one line, up to the newline that ends it
(`dropLine`), also when there is an error in it. Most errors skip what is left of
the line, and they find its end because the tokens do (`nextToken_inside`,
`nextToken_end`). Three do not:

- a pipe that begins with an operator: `mkCmd` returns `NULL` there without any
  skipping (the loop that would is disabled), and what follows the operator is
  left to the next call;
- a redirection at the end of the line: the skipping takes the next token before
  it looks, which is already behind the line;
- too long a word, where the skipping stops at a NUL or at an escaped newline.

`oneLine` says from the text alone that none of this happens: it runs over the
tokens of the line and keeps track of the place (`Where`) the parser is at. On
such a line a call reads just the line (`parse_line`), and a sequence of calls
takes the input line by line (`calls_lines`).

Key definitions: `Where`, `Where.step`, `resyncs`, `oneLine`, `calls`, `behind`.
Key theorems: `OnLine.next`, `cmdLoop_line`, `mkCmd_line`, `pipeLoop_line`, `parse_line`, `calls_lines`.
-/
import Csc501.Shell.WellFormed

namespace Csc501
namespace Shell

open Lib

/-! ### Where in a line the parser is -/

/-- The places of the parser in a line, by what the token ahead may be: in a
command it matters whether `in` and `out` are set. -/
inductive Where
  | start
  | connected
  | inside (inp out : Bool)
  | ended (out : Bool)
  | redirect (inp out : Bool)
  | skipping
  deriving DecidableEq, Repr

namespace Where

/-- A token that begins a pipe; with any other the call is over. -/
def begin (t : Token) : Option Where :=
  if t.cmdToken then some start
  else if t = .tword then some (inside false false)
  else none

/-- A connector. -/
def connect (out : Bool) : Where := if out then skipping else connected

/-- Where a token leads that does not end the line; `none` if the call ends with it. -/
def step : Where → Token → Option Where
  | start, t => begin t
  | connected, t =>
    if t.cmdToken then some connected
    else if t = .tword then some (inside true false)
    else some skipping
  | inside inp out, t =>
    if t = .tword then some (inside inp out)
    else if t = .tin then some (if inp then skipping else redirect true out)
    else if t.toFile then some (if out then skipping else redirect inp true)
    else if t.cmdToken then some (ended out)
    else if t.pipeToken then some (connect out)
    else none
  | ended out, t => if t.pipeToken then some (connect out) else begin t
  | redirect inp out, t => some (if t = .tword then inside inp out else skipping)
  | skipping, _ => some skipping

/-- The name of a file is to follow. -/
def wantsFile : Where → Bool
  | redirect _ _ => true
  | _ => false

end Where

/-- The next token is no word, or one that does not make the skipping break off. -/
def intact (s : Text) : Bool :=
  match overlong s with
  | some (m, u) => !breaks m u
  | none => true

/-- From a place in it, the line is read to its end and no further. -/
def resyncs : ℕ → Where → Text → Bool
  | 0, _, _ => false
  | n + 1, w, s =>
    if (nextToken s).token.endOfInput then intact s && (!w.wantsFile || (nextToken s).rest.isEmpty)
    else
      match w.step (nextToken s).token with
      | none => (nextToken s).rest.isEmpty
      | some w => resyncs n w (nextToken s).rest

/-- The condition on a line, with what follows it. -/
def oneLine (s : Text) : Bool := resyncs (s.length + 1) .start s

/-- The parser after `n` calls. -/
def calls : ℕ → St → Option St
  | 0, s => some s
  | n + 1, s => (calls n s).bind fun s => (parse s).map Prod.snd

/-- What follows the first `n` lines. -/
def behind : ℕ → Text → Text
  | 0, s => s
  | n + 1, s => dropLine .plain (behind n s)

/-! ### Steps -/

/-- The parser is in a line that is followed by `t`, at `w`, and the rest of the
line can be read. -/
structure OnLine (t : Text) (w : Where) (s : St) : Prop where
  ascii : Ascii s.input
  done : s.la.endOfInput = true → s.input = t ∧ (w.wantsFile = true → t = [])
  line : s.la.endOfInput = false → dropLine .plain s.input = t
  ahead : s.la.endOfInput = false → ∀ w', w.step s.la = some w' → ∃ n, resyncs n w' s.input = true
  stop : s.la.endOfInput = false → w.step s.la = none → s.input = []

section Steps

variable {t : Text} {w w' : Where} {s s' : St}

theorem OnLine.print (h : OnLine t w s) (text : String) : OnLine t w (s.print text) :=
  ⟨h.ascii, h.done, h.line, h.ahead, h.stop⟩

/-- At the end of the line it does not matter where the parser is, if no file is wanted. -/
theorem OnLine.of_end (h : OnLine t w s) (he : s.la.endOfInput = true) (hw : w'.wantsFile = false) :
    OnLine t w' s := by
  refine ⟨h.ascii, ?_, ?_, ?_, ?_⟩
  · exact fun _ => ⟨(h.done he).1, fun hf => absurd (hw.symm.trans hf) (by simp)⟩
  all_goals exact fun hn => absurd (he.symm.trans hn) (by simp)

/-- Two places that treat the token ahead alike. -/
theorem OnLine.of_step (h : OnLine t w s) (hw : w'.wantsFile = false) (heq : w'.step s.la = w.step s.la) :
    OnLine t w' s := by
  refine ⟨h.ascii, ?_, h.line, ?_, ?_⟩
  · exact fun he => ⟨(h.done he).1, fun hf => absurd (hw.symm.trans hf) (by simp)⟩
  · rw [heq]
    exact h.ahead
  · rw [heq]
    exact h.stop

/-- The first token of what is left of a line. -/
theorem onLine_next {n : ℕ} (ha : Ascii s.input) (hr : resyncs n w s.input = true) :
    OnLine (dropLine .plain s.input) w (next s) := by
  cases n with
  | zero => exact absurd hr (by simp [resyncs])
  | succ n =>
    have hsuf : (next s).input <:+ s.input := (nextToken_suffix s.input).trans (List.tail_suffix _)
    rw [resyncs] at hr
    refine ⟨ha.suffix hsuf, ?_, ?_, ?_, ?_⟩
    · intro he
      have he' : (nextToken s.input).token.endOfInput = true := he
      rw [if_pos he', Bool.and_eq_true] at hr
      obtain ⟨hint, hfile⟩ := hr
      have hend : (next s).input = dropLine .plain s.input := by
        apply nextToken_end ha he
        intro m u hmu
        simpa [intact, hmu] using hint
      refine ⟨hend, ?_⟩
      intro hw
      rw [hw] at hfile
      rw [← hend]
      exact List.isEmpty_iff.mp hfile
    · intro he
      exact (nextToken_inside ha he).symm
    · intro he w' hw'
      rw [if_neg (by rw [Bool.not_eq_true]; exact he)] at hr
      have hw'' : w.step (nextToken s.input).token = some w' := hw'
      rw [hw''] at hr
      exact ⟨n, hr⟩
    · intro he hw'
      rw [if_neg (by rw [Bool.not_eq_true]; exact he)] at hr
      have hw'' : w.step (nextToken s.input).token = none := hw'
      rw [hw''] at hr
      exact List.isEmpty_iff.mp hr

/-- **A step in a line.** -/
theorem OnLine.next (h : OnLine t w s) (he : s.la.endOfInput = false) (hw : w.step s.la = some w') :
    OnLine t w' (next s) := by
  obtain ⟨n, hn⟩ := h.ahead he w' hw
  rw [← h.line he]
  exact onLine_next h.ascii hn

/-- The call stops at a token that begins no pipe. -/
theorem OnLine.input_eq (h : OnLine t w s) (hw : s.la.endOfInput = false → w.step s.la = none) : s.input = t := by
  cases he : s.la.endOfInput with
  | true => exact (h.done he).1
  | false =>
    have hnil := h.stop he (hw he)
    rw [← h.line he, hnil]
    rfl

end Steps

/-! ### Skipping -/

/-- The call is at the end of the line. -/
def AtEnd (t : Text) (s : St) : Prop := s.la.endOfInput = true ∧ s.input = t

theorem OnLine.atEnd {t : Text} {w : Where} {s : St} (h : OnLine t w s) (he : s.la.endOfInput = true) : AtEnd t s :=
  ⟨he, (h.done he).1⟩

theorem skipToEnd_line {t : Text} : ∀ {n : ℕ} {w : Where} {s s' : St}, OnLine t w s →
    (s.la.endOfInput = false → w.step s.la = some .skipping) → skipToEnd n s = some s' → AtEnd t s'
  | 0, _, _, _, _, _, hs => absurd hs (by simp [skipToEnd])
  | n + 1, w, s, s', h, hw, hs => by
    rw [skipToEnd] at hs
    split_ifs at hs with he
    · cases hs
      exact h.atEnd he
    · have hn := Bool.eq_false_iff.mpr he
      exact skipToEnd_line (h.next hn (hw hn)) (fun _ => rfl) hs

theorem skipToEnd_atEnd {t : Text} {n : ℕ} {s s' : St} (h : AtEnd t s) (hs : skipToEnd n s = some s') : AtEnd t s' := by
  cases n with
  | zero => exact absurd hs (by simp [skipToEnd])
  | succ n =>
    rw [skipToEnd, if_pos h.1] at hs
    cases hs
    exact h

/-- Behind an error: the token at hand is taken off first, which goes wrong if it
ends the line. -/
theorem skipLine_line {t : Text} {n : ℕ} {w : Where} {s s' : St} (h : OnLine t w s)
    (hw : s.la.endOfInput = false → w.step s.la = some .skipping) (hf : s.la.endOfInput = true → w.wantsFile = true)
    (hs : skipLine n s = some s') : AtEnd t s' := by
  unfold skipLine at hs
  cases he : s.la.endOfInput with
  | false => exact skipToEnd_line (h.next he (hw he)) (fun _ => rfl) hs
  | true =>
    obtain ⟨hin, hfile⟩ := h.done he
    have hnil : t = [] := hfile (hf he)
    have hnext : next s = ⟨.tend, [], [], s.printed ++ []⟩ := by
      rw [next, hin, hnil]
      rfl
    cases n with
    | zero => exact absurd hs (by simp [skipToEnd])
    | succ n =>
      rw [skipToEnd, hnext, if_pos (show Token.tend.endOfInput = true from rfl)] at hs
      cases hs
      exact ⟨rfl, hnil.symm⟩

/-! ### Commands -/

/-- The place of the parser in a command. -/
def Cmd.inside (c : Cmd) : Where := .inside (c.inp ≠ .tnil) (c.out ≠ .tnil)

theorem addArg_inside {c c' : Cmd} {w : Text} (h : c.addArg w = some c') : c'.inside = c.inside := by
  have hg : c.grow.inp = c.inp ∧ c.grow.out = c.out := by
    unfold Cmd.grow
    split_ifs
    · exact ⟨rfl, rfl⟩
    · exact ⟨rfl, rfl⟩
  unfold Cmd.addArg Cmd.setArg at h
  split_ifs at h
  · cases h
    simp only [Cmd.inside, hg]
  · exact absurd h (by simp)

section Inside

variable {c : Cmd} {t : Token}

/-- A `<` in a command that has an input already. -/
theorem inside_step_in_again (h : c.inp ≠ .tnil) : c.inside.step .tin = some .skipping := by
  simp [Cmd.inside, Where.step, h]

theorem inside_step_in (h : c.inp = .tnil) : c.inside.step .tin = some (.redirect true (c.out ≠ .tnil)) := by
  simp [Cmd.inside, Where.step, h]

/-- The operators of the output are not the other tokens of a command. -/
theorem Token.toFile_ne (ht : t.toFile = true) : t ≠ .tword ∧ t ≠ .tin ∧ t ≠ .tnil := by
  revert ht
  cases t <;> decide

theorem inside_step_out_again (ht : t.toFile = true) (h : c.out ≠ .tnil) : c.inside.step t = some .skipping := by
  simp [Cmd.inside, Where.step, Token.toFile_ne ht, ht, h]

theorem inside_step_out (ht : t.toFile = true) (h : c.out = .tnil) :
    c.inside.step t = some (.redirect (c.inp ≠ .tnil) true) := by
  simp [Cmd.inside, Where.step, Token.toFile_ne ht, ht, h]

end Inside

/-- The name of a file. -/
theorem OnLine.file {t : Text} {inp out : Bool} {s : St} (h : OnLine t (.redirect inp out) s) (hword : s.la = .tword) :
    OnLine t (.inside inp out) (Shell.next s) := by
  apply h.next (by rw [hword]; rfl)
  simp [Where.step, hword]

/-- What is known behind the loop over a command. -/
def LoopLine (t : Text) (s : St) : Option Cmd → Prop
  | none => AtEnd t s
  | some c => OnLine t c.inside s ∧ s.la.inCmd = false

section LoopSkip

variable {t : Text} {n : ℕ} {s s' : St} {r : Option Cmd} {text : String}

/-- An operator that may not stand here. -/
theorem skip_ambiguous {w : Where} (h : OnLine t w s) (he : s.la.endOfInput = false)
    (hw : w.step s.la = some .skipping)
    (hr : (skipLine n (s.print text)).map (fun s => ((none : Option Cmd), s)) = some (r, s')) : LoopLine t s' r := by
  obtain ⟨s₁, hs₁, heq⟩ := Option.map_eq_some_iff.mp hr
  cases heq
  exact skipLine_line (h.print text) (fun _ => hw) (fun he' => absurd (he.symm.trans he') (by simp)) hs₁

/-- Something else where the name of a file is wanted. -/
theorem skip_noFile {inp out : Bool} (h : OnLine t (.redirect inp out) s) (hword : s.la ≠ .tword)
    (hr : (skipLine n (s.print text)).map (fun s => ((none : Option Cmd), s)) = some (r, s')) : LoopLine t s' r := by
  obtain ⟨s₁, hs₁, heq⟩ := Option.map_eq_some_iff.mp hr
  cases heq
  exact skipLine_line (h.print text) (fun _ => by simp [Where.step, hword]) (fun _ => rfl) hs₁

end LoopSkip

/-- **The loop over a command stays in the line.** -/
theorem cmdLoop_line {t : Text} : ∀ {n : ℕ} {c : Cmd} {s s' : St} {r : Option Cmd}, OnLine t c.inside s →
    cmdLoop n c s = some (r, s') → LoopLine t s' r
  | 0, _, _, _, _, _, hr => absurd hr (by simp [cmdLoop])
  | n + 1, c, s, s', r, h, hr => by
    rcases s.la.inCmd_cases with hla | hla | hla | hla
    · have he : s.la.endOfInput = false := by
        rw [hla]
        rfl
      rw [cmdLoop_in hla] at hr
      split_ifs at hr with h1 h2
      · exact skip_ambiguous h he (hla ▸ inside_step_in_again h1) hr
      all_goals
        have hstep := inside_step_in (not_not.mp h1)
        rw [← hla] at hstep
      · exact skip_noFile (h.next he hstep) h2 hr
      · apply cmdLoop_line _ hr
        exact (h.next he hstep).file (not_not.mp h2)
    · have he := Token.endOfInput_of_toFile hla
      rw [cmdLoop_out hla] at hr
      split_ifs at hr with h1 h2
      · exact skip_ambiguous h he (inside_step_out_again hla h1) hr
      · exact skip_noFile (h.next he (inside_step_out hla (not_not.mp h1))) h2 hr
      · apply cmdLoop_line _ hr
        have hin := (h.next he (inside_step_out hla (not_not.mp h1))).file (not_not.mp h2)
        rwa [Cmd.inside, show decide (s.la ≠ .tnil) = true by simp [(Token.toFile_ne hla).2.2]]
    · rw [cmdLoop_word hla] at hr
      obtain ⟨c₁, hc₁, hr⟩ := Option.bind_eq_some_iff.mp hr
      refine cmdLoop_line (h.next (by rw [hla]; rfl) ?_) hr
      rw [hla, addArg_inside hc₁]
      rfl
    · rw [cmdLoop_stop hla] at hr
      cases hr
      exact ⟨h, hla⟩

/-- Behind a command. -/
def Cmd.ended (c : Cmd) : Where := .ended (c.out ≠ .tnil)

theorem setArg_ended {c c' : Cmd} {i : ℕ} {x : Cell} (h : c.setArg i x = some c') : c'.ended = c.ended := by
  unfold Cmd.setArg at h
  split_ifs at h
  cases h
  rfl

theorem endCmd_line {t : Text} {c : Cmd} {s s' : St} {r : Made} (h : OnLine t c.inside s) (hla : s.la.inCmd = false)
    (hr : endCmd c s = some (r, s')) : r = .null ∧ AtEnd t s' ∨ ∃ c', r = .cmd c' ∧ OnLine t c'.ended s' := by
  unfold endCmd at hr
  split_ifs at hr with h1 h2 h3
  · cases hr
    exact .inl ⟨rfl, h.atEnd (by rw [h1]; rfl)⟩
  all_goals
    obtain ⟨c', hc', heq⟩ := Option.map_eq_some_iff.mp hr
    cases heq
    refine .inr ⟨c', rfl, ?_⟩
    rw [setArg_ended hc']
  · apply h.next (by rw [h2]; rfl)
    rw [h2]
    rfl
  · apply h.next (by rw [h3]; rfl)
    rw [h3]
    rfl
  · apply h.of_step rfl
    revert hla h2 h3
    unfold Cmd.ended Cmd.inside
    cases s.la <;> simp [Where.step, Where.begin, Token.inCmd, Token.toFile, Token.cmdToken, Token.pipeToken]

/-- The places a command can begin at, behind `inpipe`. -/
structure Begins (w : Where) (inpipe : Token) : Prop where
  skip : ∀ t : Token, t.cmdToken = true → w.step t = some w
  word : w.step .tword = some (.inside (inpipe ≠ .tnil) false)
  file : w.wantsFile = false

theorem begins_start : Begins .start .tnil where
  skip := fun t ht => by simp [Where.step, Where.begin, ht]
  word := rfl
  file := rfl

theorem begins_connected (type : Ptype) : Begins .connected type.token where
  skip := fun t ht => by simp [Where.step, ht]
  word := by cases type <;> rfl
  file := rfl

theorem skipCmdTokens_line {t : Text} {w : Where} (hw : ∀ t : Token, t.cmdToken = true → w.step t = some w) :
    ∀ {n : ℕ} {s s' : St}, OnLine t w s → skipCmdTokens n s = some s' → OnLine t w s' ∧ s'.la.cmdToken = false
  | 0, _, _, _, hs => absurd hs (by simp [skipCmdTokens])
  | n + 1, s, s', h, hs => by
    rw [skipCmdTokens] at hs
    split_ifs at hs with ht
    · exact skipCmdTokens_line hw (h.next (Token.endOfInput_of_cmdToken ht) (hw _ ht)) hs
    · cases hs
      exact ⟨h, Bool.eq_false_iff.mpr ht⟩

/-- What is known behind a call of `mkCmd`, by what it returns. -/
def Made.Line (t : Text) (w : Where) (s : St) : Made → Prop
  | .null => AtEnd t s ∨ OnLine t w s ∧ s.la ≠ .tword ∧ s.la.cmdToken = false
  | .empty => AtEnd t s
  | .ended => OnLine t w s ∧ s.la = .tend
  | .cmd c => OnLine t c.ended s

/-- **A call of `mkCmd` stays in the line.** -/
theorem mkCmd_line {t : Text} {n : ℕ} {w : Where} {inpipe : Token} {s s' : St} {r : Made} (hw : Begins w inpipe)
    (h : OnLine t w s) (hr : mkCmd n inpipe s = some (r, s')) : r.Line t w s' := by
  obtain ⟨s₁, hs₁, hr⟩ := Option.bind_eq_some_iff.mp hr
  obtain ⟨h₁, hct⟩ := skipCmdTokens_line hw.skip h hs₁
  split_ifs at hr with h1 h2 h3
  · cases hr
    exact ⟨h₁, h2⟩
  · cases hr
    refine h₁.atEnd ?_
    rcases h3 with h3 | h3
    · rw [h3]
      rfl
    · rw [h3]
      rfl
  · cases hr
    exact .inr ⟨h₁.print errMsg, h1, hct⟩
  · have hword : s₁.la = .tword := not_not.mp h1
    have hin : OnLine t { newCmd s₁.word with inp := inpipe }.inside (next s₁) := by
      apply h₁.next (by rw [hword]; rfl)
      rw [hword, hw.word]
      rfl
    obtain ⟨⟨r₂, s₂⟩, hs₂, hr⟩ := Option.bind_eq_some_iff.mp hr
    have hloop := cmdLoop_line hin hs₂
    cases r₂ with
    | none =>
      cases hr
      exact .inl hloop
    | some c =>
      obtain ⟨hc, hla⟩ := hloop
      rcases endCmd_line hc hla hr with ⟨rfl, hend⟩ | ⟨c', rfl, hon⟩
      · exact .inl hend
      · exact hon

/-! ### Pipes -/

/-- Behind a command a token that is no connector begins the next pipe. -/
theorem OnLine.start {t : Text} {c : Cmd} {s : St} (h : OnLine t c.ended s) (hp : s.la.pipeToken = false) :
    OnLine t .start s := by
  apply h.of_step rfl
  simp [Cmd.ended, Where.step, hp]

/-- What is known behind the loop over the connectors. -/
def PipeLine (t : Text) (s : St) : Option Pipe → Prop
  | none => AtEnd t s
  | some _ => OnLine t .start s

/-- **The loop over the connectors stays in the line.** -/
theorem pipeLoop_line {t : Text} : ∀ {n : ℕ} {type : Ptype} {cmds : List Cmd} {c : Cmd} {s s' : St} {r : Option Pipe},
    OnLine t c.ended s → pipeLoop n type cmds c s = some (r, s') → PipeLine t s' r
  | 0, _, _, _, _, _, _, _, hr => absurd hr (by simp [pipeLoop])
  | n + 1, type, cmds, c, s, s', r, h, hr => by
    cases hp : s.la.pipeToken with
    | false =>
      rw [pipeLoop_stop hp] at hr
      cases hr
      exact h.start hp
    | true =>
      have he := Token.endOfInput_of_pipeToken hp
      have hstep : c.ended.step s.la = some (.connect (c.out ≠ .tnil)) := by simp [Cmd.ended, Where.step, hp]
      by_cases hout : c.out = .tnil
      · rw [pipeLoop_join hp hout] at hr
        obtain ⟨⟨m, s₁⟩, hs₁, hr⟩ := Option.bind_eq_some_iff.mp hr
        have hconn : OnLine t .connected (next s) := by
          apply h.next he
          rw [hstep]
          simp [Where.connect, hout]
        have hm := mkCmd_line (begins_connected s.la.ptype) hconn hs₁
        cases m with
        | null =>
          obtain ⟨s₂, hs₂, heq⟩ := Option.map_eq_some_iff.mp hr
          cases heq
          rcases hm with hend | ⟨hon, hword, hct⟩
          · exact skipToEnd_atEnd hend hs₂
          · exact skipToEnd_line hon (fun _ => by simp [Where.step, hword, hct]) hs₂
        | empty =>
          obtain ⟨s₂, hs₂, heq⟩ := Option.map_eq_some_iff.mp hr
          cases heq
          exact skipToEnd_atEnd (show AtEnd t (s₁.print _) from hm) hs₂
        | ended =>
          cases hr
          obtain ⟨hon, hla⟩ := hm
          exact hon.of_end (by rw [hla]; rfl) rfl
        | cmd d => exact pipeLoop_line hm hr
      · rw [pipeLoop_ambiguous hp hout] at hr
        obtain ⟨s₁, hs₁, heq⟩ := Option.map_eq_some_iff.mp hr
        cases heq
        refine skipLine_line (h.print _) (fun _ => ?_) (fun he' => absurd (he.symm.trans he') (by simp)) hs₁
        rw [la_print, hstep]
        simp [Where.connect, hout]

/-- What is known behind a call of `mkPipe`: it is at the end of the line, or at an
operator that begins no pipe. -/
def Stopped (t : Text) (s : St) : Prop :=
  AtEnd t s ∨ OnLine t .start s ∧ (s.la.endOfInput = false → Where.start.step s.la = none)

theorem Stopped.input_eq {t : Text} {s : St} (h : Stopped t s) : s.input = t := by
  rcases h with h | ⟨hon, hstop⟩
  · exact h.2
  · exact hon.input_eq hstop

mutual

theorem mkPipe_line {t : Text} : ∀ {n : ℕ} {s s' : St} {ps : List Pipe}, OnLine t .start s →
    mkPipe n s = some (ps, s') → Stopped t s'
  | 0, _, _, _, _, hr => absurd hr (by simp [mkPipe])
  | n + 1, s, s', ps, h, hr => by
    rw [mkPipe] at hr
    obtain ⟨⟨m, s₁⟩, hs₁, hr⟩ := Option.bind_eq_some_iff.mp hr
    have hm := mkCmd_line begins_start h hs₁
    cases m with
    | null =>
      cases hr
      rcases hm with hend | ⟨hon, hword, hct⟩
      · exact .inl hend
      · exact .inr ⟨hon, fun _ => by simp [Where.step, Where.begin, hword, hct]⟩
    | empty =>
      cases hr
      exact .inl hm
    | ended =>
      obtain ⟨⟨ps', s₂⟩, hs₂, heq⟩ := Option.map_eq_some_iff.mp hr
      cases heq
      exact nextPipes_line hm.1 hs₂
    | cmd c =>
      obtain ⟨⟨o, s₂⟩, hs₂, hr⟩ := Option.bind_eq_some_iff.mp hr
      have hp := pipeLoop_line hm hs₂
      cases o with
      | none =>
        cases hr
        exact .inl hp
      | some p =>
        obtain ⟨⟨ps', s₃⟩, hs₃, heq⟩ := Option.map_eq_some_iff.mp hr
        cases heq
        exact nextPipes_line hp hs₃

theorem nextPipes_line {t : Text} : ∀ {n : ℕ} {s s' : St} {ps : List Pipe}, OnLine t .start s →
    nextPipes n s = some (ps, s') → Stopped t s'
  | 0, _, _, _, _, hr => absurd hr (by simp [nextPipes])
  | n + 1, s, s', ps, h, hr => by
    rw [nextPipes] at hr
    split_ifs at hr with hend
    · cases hr
      exact .inl (h.atEnd hend)
    · obtain ⟨⟨ps₁, s₁⟩, hs₁, hr⟩ := Option.bind_eq_some_iff.mp hr
      have hstop := mkPipe_line h hs₁
      split_ifs at hr with hnil hend₁
      · cases hr
        exact hstop
      · cases hr
        exact hstop
      · rcases hstop with hend' | ⟨hon, -⟩
        · exact absurd hend'.1 hend₁
        · exact nextPipes_line hon hr

end

/-- **A call reads the line it begins with**, if that can be told from the line. -/
theorem parse_line {s s' : St} {ps : List Pipe} (ha : Ascii s.input) (hl : oneLine s.input = true)
    (hr : parse s = some (ps, s')) : s'.input = dropLine .plain s.input :=
  (mkPipe_line (onLine_next ha hl) hr).input_eq

theorem behind_suffix (input : Text) : ∀ n : ℕ, behind n input <:+ input
  | 0 => List.suffix_rfl
  | n + 1 => (dropLine_suffix .plain _).trans (behind_suffix input n)

/-- **The calls take the input line by line**, whatever is on the lines that meet
the condition: after each call the input left is what follows the lines read, one
for each call. -/
theorem calls_lines {n : ℕ} {s : St} (ha : Ascii s.input) (hl : ∀ k < n, oneLine (behind k s.input) = true) :
    ∀ k ≤ n, ∃ s', calls k s = some s' ∧ s'.input = behind k s.input
  | 0, _ => ⟨s, rfl, rfl⟩
  | k + 1, hk => by
    obtain ⟨s₁, hs₁, hin⟩ := calls_lines ha hl k (Nat.le_of_succ_le hk)
    obtain ⟨ps, s₂, hs₂, -⟩ := parse_ok s₁
    refine ⟨s₂, ?_, ?_⟩
    · rw [calls, hs₁, Option.bind_some, hs₂]
      rfl
    · rw [behind, ← hin]
      apply parse_line _ _ hs₂
      · rw [hin]
        exact ha.suffix (behind_suffix s.input k)
      · rw [hin]
        exact hl k hk

/-- A line with an error in it, that its call reads to the end; the next line is
the next call's. -/
theorem calls_lines_ambiguous : Ascii "a < b < c\nd\n".toList ∧
    ∀ k ≤ 2, ∃ s', calls k (.init "a < b < c\nd\n".toList) = some s' ∧ s'.input = behind k "a < b < c\nd\n".toList :=
  ⟨by decide, calls_lines (s := .init "a < b < c\nd\n".toList) (by decide) (by decide +kernel)⟩

/-- **A call may leave text of its line, or read the next one**: behind a `|` that
begins a pipe the rest is left, to be run as a command, and behind a `<` that ends
the line the next one is skipped. -/
theorem line_left_or_swallowed :
    ¬ (∀ input : Text, Ascii input → ∀ n, ∃ s', calls n (.init input) = some s' ∧ s'.input = behind n input) ∧
      (calls 1 (.init "| foo\n".toList)).map St.input = some " foo\n".toList ∧
      (calls 1 (.init "a <\nb\n".toList)).map St.input = some [] ∧ behind 1 "a <\nb\n".toList = "b\n".toList := by
  have hleft : (calls 1 (.init "| foo\n".toList)).map St.input = some " foo\n".toList := by decide +kernel
  refine ⟨?_, hleft, by decide +kernel, by decide⟩
  intro h
  obtain ⟨s', hs', hin⟩ := h "| foo\n".toList (by decide) 1
  rw [hs', Option.map_some, hin] at hleft
  exact absurd hleft (by decide)

end Shell
end Csc501

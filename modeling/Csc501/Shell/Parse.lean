/-
# The parser of the shell

`mkCmd`, `mkPipe` and `parse` of `hw2/parse.c`. The parser looks one token ahead
(`LA`), which it takes over from call to call, and reads from standard input; the
state is that token, the word that goes with it, what is left of the input, and
what was printed. A `NULL` pipe is the empty list, and a list of commands that
ends in the static command `End` is marked (`atEnd`).

The argument array is modelled with its cells, those not assigned yet `unset`;
`none` is an assignment outside of it. The numbers of arguments are not bounded,
and no allocation fails. The loops and the recursion of `mkPipe` are run with
fuel, and `none` is also the result without enough of it; `parse` has enough, and
its result is never `none` (`parse_ok`, in `WellFormed`).

Key definitions: `St`, `Cmd`, `Pipe`, `mkCmd`, `mkPipe`, `parse`.
-/
import Csc501.Shell.Lex

namespace Csc501
namespace Shell

open Lib

/-! ### State -/

/-- `LookAhead`, `Word`, standard input and standard output. -/
structure St where
  la : Token
  word : Text
  input : Text
  printed : Text
  deriving DecidableEq, Repr

/-- `Next`. -/
def next (s : St) : St :=
  let l := nextToken s.input
  ⟨l.token, l.word, l.rest, s.printed ++ l.printed⟩

/-- `printf` of a fixed text. -/
def St.print (s : St) (text : String) : St := { s with printed := s.printed ++ text.toList }

/-- `ERR_MSG`. -/
def errMsg : String := "Invalid input\n"

/-- `while (CmdToken(LA)) Next();`. -/
def skipCmdTokens : ℕ → St → Option St
  | 0, _ => none
  | n + 1, s => if s.la.cmdToken then skipCmdTokens n (next s) else some s

/-- `while (!EndOfInput(LA)) Next();`. -/
def skipToEnd : ℕ → St → Option St
  | 0, _ => none
  | n + 1, s => if s.la.endOfInput then some s else skipToEnd n (next s)

/-- `do { Next(); } while (!EndOfInput(LA));`. -/
def skipLine (n : ℕ) (s : St) : Option St := skipToEnd n (next s)

/-! ### Commands -/

/-- An element of `args`. -/
inductive Cell
  | unset
  | null
  | word (w : Text)
  deriving DecidableEq, Repr

/-- `struct cmd_t`, less its `next`. -/
structure Cmd where
  exec : Token
  inp : Token
  out : Token
  infile : Option Text
  outfile : Option Text
  nargs : ℕ
  maxargs : ℕ
  args : List Cell
  deriving DecidableEq, Repr

/-- `newCmd`. -/
def newCmd (cmd : Text) : Cmd where
  exec := .tsemi
  inp := .tnil
  out := .tnil
  infile := none
  outfile := none
  nargs := 1
  maxargs := 4
  args := [.word (cstr cmd), .unset, .unset, .unset]

/-- `c->args[i] = x`, where the array has `maxargs` elements. -/
def Cmd.setArg (c : Cmd) (i : ℕ) (x : Cell) : Option Cmd :=
  if i < c.maxargs then some { c with args := c.args.set i x } else none

/-- The array is doubled, if there is no room for an argument and `NULL`. -/
def Cmd.grow (c : Cmd) : Cmd :=
  if c.nargs + 2 > c.maxargs then
    { c with maxargs := c.maxargs + c.maxargs, args := c.args ++ List.replicate c.maxargs .unset }
  else c

/-- `c->args[c->nargs++] = mkWord(Word)`. -/
def Cmd.addArg (c : Cmd) (w : Text) : Option Cmd :=
  (c.grow.setArg c.nargs (.word (cstr w))).map fun c => { c with nargs := c.nargs + 1 }

/-- What `mkCmd` returns: `NULL`, `&Empty`, `&End` or a command. -/
inductive Made
  | null
  | empty
  | ended
  | cmd (c : Cmd)
  deriving DecidableEq, Repr

/-- The loop of `mkCmd` over a command: the command, or `NULL` after an error. -/
def cmdLoop : ℕ → Cmd → St → Option (Option Cmd × St)
  | 0, _, _ => none
  | n + 1, c, s =>
    match s.la with
    | .tin =>
      if c.inp ≠ .tnil then
        (skipLine n (s.print "Ambiguous input redirect.\n")).map fun s => (none, s)
      else
        let s := next s
        if s.la ≠ .tword then (skipLine n (s.print errMsg)).map fun s => (none, s)
        else cmdLoop n { c with inp := .tin, infile := some (cstr s.word) } (next s)
    | .tout | .toutErr | .tapp | .tappErr =>
      if c.out ≠ .tnil then
        (skipLine n (s.print "Ambiguous output redirect.\n")).map fun s => (none, s)
      else
        let c := { c with out := s.la }
        let s := next s
        if s.la ≠ .tword then (skipLine n (s.print errMsg)).map fun s => (none, s)
        else cmdLoop n { c with outfile := some (cstr s.word) } (next s)
    | .tword => (c.addArg s.word).bind fun c => cmdLoop n c (next s)
    | _ => some (some c, s)

section Loop

variable {n : ℕ} {c : Cmd} {s : St}

theorem cmdLoop_in (h : s.la = .tin) :
    cmdLoop (n + 1) c s =
      if c.inp ≠ .tnil then (skipLine n (s.print "Ambiguous input redirect.\n")).map fun s => (none, s)
      else if (next s).la ≠ .tword then (skipLine n ((next s).print errMsg)).map fun s => (none, s)
      else cmdLoop n { c with inp := .tin, infile := some (cstr (next s).word) } (next (next s)) := by
  rw [cmdLoop, h]

theorem cmdLoop_out (h : s.la.toFile = true) :
    cmdLoop (n + 1) c s =
      if c.out ≠ .tnil then (skipLine n (s.print "Ambiguous output redirect.\n")).map fun s => (none, s)
      else if (next s).la ≠ .tword then (skipLine n ((next s).print errMsg)).map fun s => (none, s)
      else cmdLoop n { c with out := s.la, outfile := some (cstr (next s).word) } (next (next s)) := by
  rw [cmdLoop]
  cases hla : s.la <;> simp [hla, Token.toFile] at h ⊢

theorem cmdLoop_word (h : s.la = .tword) :
    cmdLoop (n + 1) c s = (c.addArg s.word).bind fun c => cmdLoop n c (next s) := by
  rw [cmdLoop, h]

theorem cmdLoop_stop (h : s.la.inCmd = false) : cmdLoop (n + 1) c s = some (some c, s) := by
  rw [cmdLoop]
  cases hla : s.la <;> simp [hla, Token.inCmd] at h ⊢

end Loop

/-- The end of `mkCmd`, behind the loop. -/
def endCmd (c : Cmd) (s : St) : Option (Made × St) :=
  if s.la = .terror then some (.null, s)
  else if s.la = .tsemi then (c.setArg c.nargs .null).map fun c => (.cmd c, next s)
  else if s.la = .tamp then ({ c with exec := .tamp }.setArg c.nargs .null).map fun c => (.cmd c, next s)
  else (c.setArg c.nargs .null).map fun c => (.cmd c, s)

/-- `mkCmd`. -/
def mkCmd (n : ℕ) (inpipe : Token) (s : St) : Option (Made × St) :=
  (skipCmdTokens n s).bind fun s =>
    if s.la ≠ .tword then
      if s.la = .tend then some (.ended, s)
      else if s.la = .tnl ∨ s.la = .terror then some (.empty, s)
      else some (.null, s.print errMsg)
    else
      (cmdLoop n { newCmd s.word with inp := inpipe } (next s)).bind fun r =>
        match r with
        | (none, s) => some (.null, s)
        | (some c, s) => endCmd c s

theorem mkCmd_word {n : ℕ} {inpipe : Token} {s : St} (h : s.la = .tword) :
    mkCmd (n + 1) inpipe s =
      (cmdLoop (n + 1) { newCmd s.word with inp := inpipe } (next s)).bind fun r =>
        match r with
        | (none, s) => some (.null, s)
        | (some c, s) => endCmd c s := by
  rw [mkCmd, skipCmdTokens, h, if_neg (by decide), Option.bind_some, if_neg (not_not.mpr h)]

/-! ### Pipes -/

/-- `Ptype`. -/
inductive Ptype
  | pout
  | poutErr
  deriving DecidableEq, Repr

/-- The token of a connector. -/
def Ptype.token : Ptype → Token
  | .pout => .tpipe
  | .poutErr => .tpipeErr

/-- What `p->type` is reset to at a connector. -/
def Token.ptype (t : Token) : Ptype := if t = .tpipeErr then .poutErr else .pout

/-- `struct pipe_t`, less its `next`: the commands from `head` on, and whether the
last one is followed by `End` (`head` itself, if there is none). -/
structure Pipe where
  type : Ptype
  cmds : List Cmd
  atEnd : Bool
  deriving DecidableEq, Repr

/-- The loop of `mkPipe` over the connectors, at the command `c` behind `cmds`:
the pipe, or `NULL` after an error. -/
def pipeLoop : ℕ → Ptype → List Cmd → Cmd → St → Option (Option Pipe × St)
  | 0, _, _, _, _ => none
  | n + 1, type, cmds, c, s =>
    if !s.la.pipeToken then some (some ⟨type, cmds ++ [c], false⟩, s)
    else
      let type := s.la.ptype
      if c.out ≠ .tnil then
        (skipLine n (s.print "Ambiguous output redirect.\n")).map fun s => (none, s)
      else
        let c := { c with out := type.token }
        (mkCmd n type.token (next s)).bind fun r =>
          match r with
          | (.null, s) => (skipToEnd n s).map fun s => (none, s)
          | (.empty, s) => (skipToEnd n (s.print "Invalid null command.\n")).map fun s => (none, s)
          -- `End` is returned at `Tend`, so no connector follows
          | (.ended, s) => some (some ⟨type, cmds ++ [c], true⟩, s)
          | (.cmd d, s) => pipeLoop n type (cmds ++ [c]) d s

section Connectors

variable {n : ℕ} {type : Ptype} {cmds : List Cmd} {c : Cmd} {s : St}

theorem pipeLoop_stop (h : s.la.pipeToken = false) :
    pipeLoop (n + 1) type cmds c s = some (some ⟨type, cmds ++ [c], false⟩, s) := by
  rw [pipeLoop, h]
  rfl

theorem pipeLoop_ambiguous (h : s.la.pipeToken = true) (hout : c.out ≠ .tnil) :
    pipeLoop (n + 1) type cmds c s =
      (skipLine n (s.print "Ambiguous output redirect.\n")).map fun s => (none, s) := by
  rw [pipeLoop, h]
  exact if_pos hout

theorem pipeLoop_join (h : s.la.pipeToken = true) (hout : c.out = .tnil) :
    pipeLoop (n + 1) type cmds c s =
      (mkCmd n s.la.ptype.token (next s)).bind fun r =>
        match r with
        | (.null, s) => (skipToEnd n s).map fun s => (none, s)
        | (.empty, s) => (skipToEnd n (s.print "Invalid null command.\n")).map fun s => (none, s)
        | (.ended, u) => some (some ⟨s.la.ptype, cmds ++ [{ c with out := s.la.ptype.token }], true⟩, u)
        | (.cmd d, u) => pipeLoop n s.la.ptype (cmds ++ [{ c with out := s.la.ptype.token }]) d u := by
  rw [pipeLoop, h]
  exact if_neg (not_not.mpr hout)

end Connectors

mutual

/-- `mkPipe`: the pipe and those that follow it. -/
def mkPipe : ℕ → St → Option (List Pipe × St)
  | 0, _ => none
  | n + 1, s =>
    (mkCmd n .tnil s).bind fun r =>
      match r with
      | (.null, s) | (.empty, s) => some ([], s)
      | (.ended, s) => nextPipes n s |>.map fun r => (⟨.pout, [], true⟩ :: r.1, r.2)
      | (.cmd c, s) =>
        (pipeLoop n .pout [] c s).bind fun r =>
          match r with
          | (none, s) => some ([], s)
          | (some p, s) => (nextPipes n s).map fun r => (p :: r.1, r.2)

/-- The loop of `mkPipe` that assigns `p->next`, again and again until the line
ends or the assignment was `NULL`. -/
def nextPipes : ℕ → St → Option (List Pipe × St)
  | 0, _ => none
  | n + 1, s =>
    if s.la.endOfInput then some ([], s)
    else
      (mkPipe n s).bind fun r =>
        if r.1 = [] then some r
        else if r.2.la.endOfInput then some r
        else nextPipes n r.2

end

/-- `parse`. -/
def parse (s : St) : Option (List Pipe × St) := mkPipe (2 * s.input.length + 6) (next s)

/-- The parser before its first call: `LookAhead` and `Word` are zero. -/
def St.init (input : Text) : St := ⟨.terror, [], input, []⟩

end Shell
end Csc501

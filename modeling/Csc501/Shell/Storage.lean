/-
# The storage of the parser

`hw2/parse.c` once more, with the blocks it allocates: a structure, an array and the words
for each command, and a structure for each pipe. `freeCmd` and `freePipe` give them back.
Only the blocks are followed here; what is built is that of `Shell.Parse` (`parse_follows`).

The parser frees a command it gives up, and no other block. At some errors it gives up more
than it frees: the commands in front of the one with the error, the structure of the pipe,
and a pipe behind `p->next` that is assigned again. Whenever this happens an error was
printed, or the token ahead is an error (`Balanced`); otherwise all that was allocated is in
the pipe that is returned. `freePipe` frees just what the pipe has, each block once.

`realloc` gives another block each time, and no allocation fails. The evaluation between
`parse` and `freePipe` reads the pipes, and is left out here.

Key definitions: `CmdCell`, `PipeCell`, `freeCmd`, `freePipe`, `parse`, `calls`, `Balanced`.
Key theorems: `freeCmd_eq`, `cmdLoop_follows`, `mkCmd_follows`, `pipeLoop_follows`,
`pipes_follow`, `parse_follows`, `lines_freed`.
-/
import Mathlib.Algebra.Order.Group.Multiset
import Csc501.Lib.Blocks
import Csc501.Lib.Simulation
import Csc501.Shell.Lines

namespace Csc501
namespace Shell
namespace Storage

open Lib

/-! ### Commands and pipes -/

/-- `Cmd`: a command, with the structure, the array of arguments, the words in it, and the
names of the files. -/
structure CmdCell where
  cmd : Cmd
  block : ℕ
  array : ℕ
  words : List ℕ
  infile : Option ℕ
  outfile : Option ℕ
  deriving DecidableEq, Repr

/-- `Pipe`, less its `next`. -/
structure PipeCell where
  type : Ptype
  cmds : List CmdCell
  atEnd : Bool
  block : ℕ
  deriving DecidableEq, Repr

/-- What the pipe is, wherever it is. -/
def PipeCell.pipe (p : PipeCell) : Pipe := ⟨p.type, p.cmds.map CmdCell.cmd, p.atEnd⟩

/-- The loop of `freeCmd` over the arguments; each must have been assigned. -/
def freeWords : ℕ → List ℕ → Blocks → Option Blocks
  | 0, _, m => some m
  | _ + 1, [], _ => none
  | n + 1, b :: l, m => (m.free b).bind (freeWords n l)

/-- `freeCmd`, behind the call for `c->next`. -/
def freeCell (c : CmdCell) (m : Blocks) : Option Blocks :=
  (Blocks.freeAll c.infile.toList m).bind fun m =>
    (Blocks.freeAll c.outfile.toList m).bind fun m =>
      (freeWords c.cmd.nargs c.words m).bind fun m => (m.free c.array).bind fun m => m.free c.block

/-- `freeCmd`, for a command and those behind it. -/
def freeCmd : List CmdCell → Blocks → Option Blocks
  | [], m => some m
  | c :: l, m => (freeCmd l m).bind (freeCell c)

/-- `freePipe`. -/
def freePipe : List PipeCell → Blocks → Option Blocks
  | [], m => some m
  | p :: l, m => (freeCmd p.cmds m).bind fun m => (freePipe l m).bind fun m => m.free p.block

/-! ### The parser -/

/-- `newCmd`. -/
def newCmd (cmd : Text) (m : Blocks) : CmdCell × Blocks :=
  let c := m.malloc
  let a := c.2.malloc
  let w := a.2.malloc
  (⟨Shell.newCmd cmd, c.1, a.1, [w.1], none, none⟩, w.2)

/-- The array moves, if there is no room for an argument and `NULL`. -/
def grow (c : CmdCell) (m : Blocks) : Option (ℕ × Blocks) :=
  if c.cmd.nargs + 2 > c.cmd.maxargs then m.realloc c.array else some (c.array, m)

/-- `c->args[c->nargs++] = mkWord(Word)`. -/
def addArg (c : CmdCell) (w : Text) (m : Blocks) : Option (CmdCell × Blocks) :=
  (grow c m).bind fun a =>
    let b := a.2.malloc
    (c.cmd.addArg w).map fun d => ({ c with cmd := d, array := a.1, words := c.words ++ [b.1] }, b.2)

/-- What `mkCmd` returns: `NULL`, `&Empty`, `&End` or a command. -/
inductive Made
  | null
  | empty
  | ended
  | cmd (c : CmdCell)
  deriving DecidableEq, Repr

/-- The way out of the loop of `mkCmd` at an error: the rest of the line is skipped, and
the command freed. -/
def giveUp (n : ℕ) (c : CmdCell) (s : St) (m : Blocks) : Option (Option CmdCell × St × Blocks) :=
  (skipLine n s).bind fun s => (freeCmd [c] m).map fun m => (none, s, m)

/-- The loop of `mkCmd` over a command. -/
def cmdLoop : ℕ → CmdCell → St → Blocks → Option (Option CmdCell × St × Blocks)
  | 0, _, _, _ => none
  | n + 1, c, s, m =>
    match s.la with
    | .tin =>
      if c.cmd.inp ≠ .tnil then giveUp n c (s.print "Ambiguous input redirect.\n") m
      else
        let s := next s
        if s.la ≠ .tword then giveUp n { c with cmd := { c.cmd with inp := .tin } } (s.print errMsg) m
        else
          let b := m.malloc
          let d := { c.cmd with inp := .tin, infile := some (cstr s.word) }
          cmdLoop n { c with cmd := d, infile := some b.1 } (next s) b.2
    | .tout | .toutErr | .tapp | .tappErr =>
      if c.cmd.out ≠ .tnil then giveUp n c (s.print "Ambiguous output redirect.\n") m
      else
        let out := s.la
        let s := next s
        if s.la ≠ .tword then giveUp n { c with cmd := { c.cmd with out := out } } (s.print errMsg) m
        else
          let b := m.malloc
          let d := { c.cmd with out := out, outfile := some (cstr s.word) }
          cmdLoop n { c with cmd := d, outfile := some b.1 } (next s) b.2
    | .tword => (addArg c s.word m).bind fun r => cmdLoop n r.1 (next s) r.2
    | _ => some (some c, s, m)

section Loop

variable {n : ℕ} {c : CmdCell} {s : St} {m : Blocks}

theorem cmdLoop_in (h : s.la = .tin) :
    cmdLoop (n + 1) c s m =
      if c.cmd.inp ≠ .tnil then giveUp n c (s.print "Ambiguous input redirect.\n") m
      else if (next s).la ≠ .tword then giveUp n { c with cmd := { c.cmd with inp := .tin } } ((next s).print errMsg) m
      else cmdLoop n
        { c with cmd := { c.cmd with inp := .tin, infile := some (cstr (next s).word) }, infile := some m.malloc.1 }
        (next (next s)) m.malloc.2 := by
  rw [cmdLoop, h]

theorem cmdLoop_out (h : s.la.toFile = true) :
    cmdLoop (n + 1) c s m =
      if c.cmd.out ≠ .tnil then giveUp n c (s.print "Ambiguous output redirect.\n") m
      else if (next s).la ≠ .tword then giveUp n { c with cmd := { c.cmd with out := s.la } } ((next s).print errMsg) m
      else cmdLoop n
        { c with cmd := { c.cmd with out := s.la, outfile := some (cstr (next s).word) }, outfile := some m.malloc.1 }
        (next (next s)) m.malloc.2 := by
  rw [cmdLoop]
  cases hla : s.la <;> simp [hla, Token.toFile] at h ⊢

theorem cmdLoop_word (h : s.la = .tword) :
    cmdLoop (n + 1) c s m = (addArg c s.word m).bind fun r => cmdLoop n r.1 (next s) r.2 := by
  rw [cmdLoop, h]

theorem cmdLoop_stop (h : s.la.inCmd = false) : cmdLoop (n + 1) c s m = some (some c, s, m) := by
  rw [cmdLoop]
  cases hla : s.la <;> simp [hla, Token.inCmd] at h ⊢

end Loop

/-- The end of `mkCmd`, behind the loop. -/
def endCmd (c : CmdCell) (s : St) (m : Blocks) : Option (Made × St × Blocks) :=
  if s.la = .terror then (freeCmd [c] m).map fun m => (.null, s, m)
  else if s.la = .tsemi then
    (c.cmd.setArg c.cmd.nargs .null).map fun d => (.cmd { c with cmd := d }, next s, m)
  else if s.la = .tamp then
    ({ c.cmd with exec := .tamp }.setArg c.cmd.nargs .null).map fun d => (.cmd { c with cmd := d }, next s, m)
  else (c.cmd.setArg c.cmd.nargs .null).map fun d => (.cmd { c with cmd := d }, s, m)

/-- `mkCmd`. -/
def mkCmd (n : ℕ) (inpipe : Token) (s : St) (m : Blocks) : Option (Made × St × Blocks) :=
  (skipCmdTokens n s).bind fun s =>
    if s.la ≠ .tword then
      if s.la = .tend then some (.ended, s, m)
      else if s.la = .tnl ∨ s.la = .terror then some (.empty, s, m)
      else some (.null, s.print errMsg, m)
    else
      let c := newCmd s.word m
      (cmdLoop n { c.1 with cmd := { c.1.cmd with inp := inpipe } } (next s) c.2).bind fun r =>
        match r with
        | (none, s, m) => some (.null, s, m)
        | (some c, s, m) => endCmd c s m

/-- `c->out` in front of a connector. -/
def CmdCell.to (c : CmdCell) (type : Ptype) : CmdCell := { c with cmd := { c.cmd with out := type.token } }

/-- The loop of `mkPipe` over the connectors, with the structure `b` of the pipe, at the
command `c` behind `cmds`. -/
def pipeLoop : ℕ → ℕ → Ptype → List CmdCell → CmdCell → St → Blocks → Option (Option PipeCell × St × Blocks)
  | 0, _, _, _, _, _, _ => none
  | n + 1, b, type, cmds, c, s, m =>
    if !s.la.pipeToken then some (some ⟨type, cmds ++ [c], false, b⟩, s, m)
    else
      let type := s.la.ptype
      if c.cmd.out ≠ .tnil then
        -- the commands in front of `c` and the pipe are not freed
        (skipLine n (s.print "Ambiguous output redirect.\n")).bind fun s =>
          (freeCmd [c] m).map fun m => (none, s, m)
      else
        let c := c.to type
        (mkCmd n type.token (next s) m).bind fun r =>
          match r with
          -- here nothing is freed
          | (.null, s, m) => (skipToEnd n s).map fun s => (none, s, m)
          | (.empty, s, m) => (skipToEnd n (s.print "Invalid null command.\n")).map fun s => (none, s, m)
          | (.ended, s, m) => some (some ⟨type, cmds ++ [c], true, b⟩, s, m)
          | (.cmd d, s, m) => pipeLoop n b type (cmds ++ [c]) d s m

mutual

/-- `mkPipe`. -/
def mkPipe : ℕ → St → Blocks → Option (List PipeCell × St × Blocks)
  | 0, _, _ => none
  | n + 1, s, m =>
    (mkCmd n .tnil s m).bind fun r =>
      match r with
      | (.null, s, m) | (.empty, s, m) => some ([], s, m)
      | (.ended, s, m) =>
        let p := m.malloc
        nextPipes n s p.2 |>.map fun r => (⟨.pout, [], true, p.1⟩ :: r.1, r.2)
      | (.cmd c, s, m) =>
        let p := m.malloc
        (pipeLoop n p.1 .pout [] c s p.2).bind fun r =>
          match r with
          | (none, s, m) => some ([], s, m)
          | (some p, s, m) => (nextPipes n s m).map fun r => (p :: r.1, r.2)

/-- The loop of `mkPipe` that assigns `p->next`; the pipe assigned before is not freed. -/
def nextPipes : ℕ → St → Blocks → Option (List PipeCell × St × Blocks)
  | 0, _, _ => none
  | n + 1, s, m =>
    if s.la.endOfInput then some ([], s, m)
    else
      (mkPipe n s m).bind fun r =>
        if r.1 = [] then some r
        else if r.2.1.la.endOfInput then some r
        else nextPipes n r.2.1 r.2.2

end

/-- `parse`. -/
def parse (s : St) (m : Blocks) : Option (List PipeCell × St × Blocks) :=
  mkPipe (2 * s.input.length + 6) (next s) m

/-- The loop of `main`, `n` times: a line is parsed, and its pipes are freed. -/
def calls : ℕ → St → Blocks → Option (St × Blocks)
  | 0, s, m => some (s, m)
  | n + 1, s, m =>
    (calls n s m).bind fun r =>
      (parse r.1 r.2).bind fun r => (freePipe r.1 r.2.2).map fun m => (r.2.1, m)

/-! ### What is in hand -/

/-- The blocks of a command, in the order they are freed. -/
def CmdCell.own (c : CmdCell) : List ℕ := c.infile.toList ++ (c.outfile.toList ++ (c.words ++ [c.array, c.block]))

/-- The blocks of commands. -/
def own (l : List CmdCell) : Multiset ℕ := (l.map fun c => (c.own : Multiset ℕ)).sum

/-- The blocks of pipes. -/
def ownPipes (l : List PipeCell) : Multiset ℕ := (l.map fun p => p.block ::ₘ own p.cmds).sum

/-- There is a word for each argument, and no file unless there is a redirection. -/
structure CmdCell.Ok (c : CmdCell) : Prop where
  counted : c.words.length = c.cmd.nargs
  infile : c.cmd.inp = .tnil → c.infile = none
  outfile : c.cmd.out = .tnil → c.outfile = none

section Own

variable {base : Multiset ℕ} {m : Blocks} {c : CmdCell}

/-- The blocks of a command other than its array. -/
def CmdCell.others (c : CmdCell) : Multiset ℕ :=
  (c.infile.toList : Multiset ℕ) + (c.outfile.toList : Multiset ℕ) + (c.words : Multiset ℕ) + {c.block}

theorem CmdCell.coe_own (c : CmdCell) : (c.own : Multiset ℕ) = c.others + {c.array} := by
  simp only [CmdCell.own, CmdCell.others, ← Multiset.coe_add]
  rw [show ([c.array, c.block] : Multiset ℕ) = {c.array} + {c.block} from rfl]
  ac_rfl

@[simp] theorem own_nil : own [] = 0 := rfl

@[simp] theorem own_cons (c : CmdCell) (l : List CmdCell) : own (c :: l) = c.own + own l := by simp [own]

@[simp] theorem own_append (l l' : List CmdCell) : own (l ++ l') = own l + own l' := by simp [own]

@[simp] theorem ownPipes_nil : ownPipes [] = 0 := rfl

@[simp] theorem ownPipes_cons (p : PipeCell) (l : List PipeCell) :
    ownPipes (p :: l) = (p.block ::ₘ own p.cmds) + ownPipes l := by simp [ownPipes]

theorem freeWords_length : ∀ (l : List ℕ) (m : Blocks), freeWords l.length l m = Blocks.freeAll l m
  | [], _ => rfl
  | b :: l, m => congrArg ((m.free b).bind ·) (funext (freeWords_length l))

theorem freeCell_eq_freeAll (h : c.Ok) (m : Blocks) : freeCell c m = Blocks.freeAll c.own m := by
  have hlast : ∀ m : Blocks, ((m.free c.array).bind fun m => m.free c.block) = Blocks.freeAll [c.array, c.block] m := by
    intro m
    simp [Blocks.freeAll]
  simp only [freeCell, CmdCell.own, Blocks.freeAll_append, ← h.counted, freeWords_length, hlast]

theorem freeCell_eq (h : c.Ok) (hm : m.live = base + c.own) : ∃ m', freeCell c m = some m' ∧ m'.live = base := by
  rw [freeCell_eq_freeAll h]
  exact Blocks.freeAll_eq hm

/-- **A command is freed**, with those behind it. -/
theorem freeCmd_eq : ∀ {l : List CmdCell} {m : Blocks} {base : Multiset ℕ}, (∀ c ∈ l, c.Ok) →
    m.live = base + own l → ∃ m', freeCmd l m = some m' ∧ m'.live = base
  | [], m, _, _, hm => ⟨m, rfl, by simpa using hm⟩
  | c :: l, m, base, h, hm => by
    have hsplit : m.live = base + c.own + own l := by rw [hm, own_cons, add_assoc]
    obtain ⟨m₁, htail, hlive⟩ := freeCmd_eq (fun d hd => h d (List.mem_cons_of_mem c hd)) hsplit
    obtain ⟨m₂, hcell, hbase⟩ := freeCell_eq (h c List.mem_cons_self) hlive
    exact ⟨m₂, by rw [freeCmd, htail, Option.bind_some, hcell], hbase⟩

/-- **A pipe is freed**, with those behind it. -/
theorem freePipe_eq : ∀ {l : List PipeCell} {m : Blocks} {base : Multiset ℕ}, (∀ p ∈ l, ∀ c ∈ p.cmds, c.Ok) →
    m.live = base + ownPipes l → ∃ m', freePipe l m = some m' ∧ m'.live = base
  | [], m, _, _, hm => ⟨m, rfl, by simpa using hm⟩
  | p :: l, m, base, h, hm => by
    have hsplit : m.live = (p.block ::ₘ base) + ownPipes l + own p.cmds := by
      rw [hm, ownPipes_cons, ← Multiset.singleton_add, ← Multiset.singleton_add]
      ac_rfl
    obtain ⟨m₁, hcmds, hlive₁⟩ := freeCmd_eq (h p List.mem_cons_self) hsplit
    obtain ⟨m₂, htail, hlive₂⟩ := freePipe_eq (fun q hq => h q (List.mem_cons_of_mem p hq)) hlive₁
    obtain ⟨m₃, hfree, hbase⟩ := Blocks.free_eq hlive₂
    exact ⟨m₃, by rw [freePipe, hcmds, Option.bind_some, htail, Option.bind_some, hfree], hbase⟩

end Own

/-! ### What is printed -/

/-- An error was printed, or is the token ahead. -/
def Loud (s s' : St) : Prop := s.printed.length < s'.printed.length ∨ s'.la = .terror

theorem Loud.after {s s₁ s' : St} (h : Loud s₁ s') (hs : s.printed.length ≤ s₁.printed.length) : Loud s s' := by
  rcases h with h | h
  · exact .inl (hs.trans_lt h)
  · exact .inr h

/-! ### One command -/

/-- The parser with the storage returns what the one without it does, and `kept` holds of
the blocks. -/
structure Agrees {α β : Type} (erase : α → β) (kept : α → St → Blocks → Prop) (r : α × St × Blocks) (r' : β × St) :
    Prop where
  same : erase r.1 = r'.1
  state : r.2.1 = r'.2
  kept : kept r.1 r.2.1 r.2.2

/-- Behind the loop of `mkCmd`, from `s` on. -/
structure InLoop (base : Multiset ℕ) (s : St) (c : Option CmdCell) (s' : St) (m : Blocks) : Prop where
  ok : ∀ d ∈ c.toList, d.Ok
  live : m.live = base + own c.toList
  grows : s.printed.length ≤ s'.printed.length
  loud : c = none → s.printed.length < s'.printed.length

/-- What `mkCmd` returned, wherever it is. -/
def Made.erase : Made → Shell.Made
  | .null => .null
  | .empty => .empty
  | .ended => .ended
  | .cmd c => .cmd c.cmd

def Made.cells : Made → List CmdCell
  | .cmd c => [c]
  | _ => []

/-- Behind `mkCmd`, from `s` on. -/
structure InCmd (base : Multiset ℕ) (s : St) (c : Made) (s' : St) (m : Blocks) : Prop where
  ok : ∀ d ∈ c.cells, d.Ok
  live : m.live = base + own c.cells
  grows : s.printed.length ≤ s'.printed.length
  loud : c = .null → Loud s s'
  ended : c = .empty → s'.la.endOfInput = true

section Cmd

variable {n : ℕ} {base : Multiset ℕ} {c : CmdCell} {s s₁ : St} {m : Blocks}

theorem newCmd_ok (inpipe : Token) (w : Text) (hm : m.live = base) :
    { (newCmd w m).1 with cmd := { (newCmd w m).1.cmd with inp := inpipe } }.Ok ∧
      (newCmd w m).2.live = base + own [{ (newCmd w m).1 with cmd := { (newCmd w m).1.cmd with inp := inpipe } }] := by
  refine ⟨⟨rfl, fun _ => rfl, fun _ => rfl⟩, ?_⟩
  rw [own_cons, own_nil, CmdCell.coe_own, CmdCell.others]
  simp only [newCmd, Blocks.malloc_live, hm, Option.toList_none, Multiset.coe_nil, Multiset.coe_singleton,
    ← Multiset.singleton_add]
  ac_rfl

/-- `<` with a file. -/
theorem setIn_ok (h : c.Ok) (hin : c.cmd.inp = .tnil) (hm : m.live = base + own [c]) (file : Option Text) :
    let d := { c with cmd := { c.cmd with inp := .tin, infile := file }, infile := some m.malloc.1 }
    d.Ok ∧ m.malloc.2.live = base + own [d] := by
  refine ⟨⟨h.counted, fun ht => absurd ht (by simp), h.outfile⟩, ?_⟩
  rw [own_cons, own_nil, CmdCell.coe_own, CmdCell.others] at hm ⊢
  simp only [Blocks.malloc_live, hm, h.infile hin, Option.toList_none, Option.toList_some, Multiset.coe_nil,
    Multiset.coe_singleton, ← Multiset.singleton_add]
  ac_rfl

/-- `>` and the like, with a file. -/
theorem setOut_ok {t : Token} (h : c.Ok) (ht : t.toFile = true) (hout : c.cmd.out = .tnil)
    (hm : m.live = base + own [c]) (file : Option Text) :
    let d := { c with cmd := { c.cmd with out := t, outfile := file }, outfile := some m.malloc.1 }
    d.Ok ∧ m.malloc.2.live = base + own [d] := by
  refine ⟨⟨h.counted, h.infile, fun hnil => absurd hnil (Token.toFile_ne ht).2.2⟩, ?_⟩
  rw [own_cons, own_nil, CmdCell.coe_own, CmdCell.others] at hm ⊢
  simp only [Blocks.malloc_live, hm, h.outfile hout, Option.toList_none, Option.toList_some, Multiset.coe_nil,
    Multiset.coe_singleton, ← Multiset.singleton_add]
  ac_rfl

theorem addArg_fields {d d' : Cmd} {w : Text} (h : d.addArg w = some d') :
    d'.nargs = d.nargs + 1 ∧ d'.inp = d.inp ∧ d'.out = d.out := by
  have hgrow : d.grow.nargs = d.nargs ∧ d.grow.inp = d.inp ∧ d.grow.out = d.out := by
    unfold Cmd.grow
    split <;> exact ⟨rfl, rfl, rfl⟩
  obtain ⟨e, hset, rfl⟩ := Option.map_eq_some_iff.mp h
  unfold Cmd.setArg at hset
  split at hset
  · obtain rfl := Option.some.inj hset
    exact ⟨congrArg (· + 1) hgrow.1, hgrow.2⟩
  · cases hset

/-- The array is the old one or another, and the rest of the command where it was. -/
theorem grow_eq (hm : m.live = c.array ::ₘ base) : ∃ a, grow c m = some a ∧ a.2.live = a.1 ::ₘ base := by
  unfold grow
  split
  · exact Blocks.realloc_eq hm
  · exact ⟨_, rfl, hm⟩

theorem addArg_follows (h : c.Ok) (hm : m.live = base + own [c]) (w : Text) :
    Lib.Follows True (fun r d => r.1.cmd = d ∧ r.1.Ok ∧ r.2.live = base + own [r.1]) (addArg c w m) (c.cmd.addArg w) := by
  have harray : m.live = c.array ::ₘ (base + c.others) := by
    rw [hm, own_cons, own_nil, CmdCell.coe_own, ← Multiset.singleton_add]
    ac_rfl
  obtain ⟨a, hgrow, hlive⟩ := grow_eq harray
  rw [addArg, hgrow, Option.bind_some]
  cases hadd : c.cmd.addArg w with
  | none => exact .neither
  | some d =>
    obtain ⟨hnargs, hin, hout⟩ := addArg_fields hadd
    refine .both ⟨rfl, ⟨?_, ?_, ?_⟩, ?_⟩
    · rw [List.length_append, h.counted, hnargs]
      rfl
    · rw [hin]
      exact h.infile
    · rw [hout]
      exact h.outfile
    · rw [own_cons, own_nil, CmdCell.coe_own]
      simp only [CmdCell.others, Blocks.malloc_live, hlive, ← Multiset.coe_add, Multiset.coe_singleton, ← Multiset.singleton_add]
      ac_rfl

theorem InLoop.after {r : Option CmdCell} {s' : St} {m' : Blocks} (h : InLoop base s₁ r s' m')
    (hs : s.printed.length ≤ s₁.printed.length) : InLoop base s r s' m' where
  ok := h.ok
  live := h.live
  grows := hs.trans h.grows
  loud hr := hs.trans_lt (h.loud hr)

theorem giveUp_follows (h : c.Ok) (hm : m.live = base + own [c]) (hs : s.printed.length < s₁.printed.length) :
    Lib.Follows True (Agrees (Option.map CmdCell.cmd) (InLoop base s)) (giveUp n c s₁ m)
      ((skipLine n s₁).map fun s => (none, s)) := by
  obtain ⟨m', hfree, hbase⟩ := freeCmd_eq (l := [c]) (by simpa using h) hm
  rw [giveUp]
  cases hskip : skipLine n s₁ with
  | none => exact .neither
  | some s' =>
    have hlt : s.printed.length < s'.printed.length := hs.trans_le (skipLine_grows hskip)
    rw [Option.bind_some, hfree]
    exact .both ⟨rfl, rfl, by simp, by simpa using hbase, hlt.le, fun _ => hlt⟩

/-- **The loop over a command**, from every command that is in hand. -/
theorem cmdLoop_follows : ∀ (n : ℕ) {c : CmdCell} (s : St) {m : Blocks}, c.Ok → m.live = base + own [c] →
    Lib.Follows True (Agrees (Option.map CmdCell.cmd) (InLoop base s)) (cmdLoop n c s m) (Shell.cmdLoop n c.cmd s)
  | 0, _, _, _, _, _ => .neither
  | n + 1, c, s, m, h, hm => by
    have hnext : s.printed.length ≤ (next s).printed.length := next_grows s
    have hfile : s.printed.length ≤ (next (next s)).printed.length := hnext.trans (next_grows _)
    rcases s.la.inCmd_cases with hla | hla | hla | hla
    · rw [cmdLoop_in hla, Shell.cmdLoop_in hla]
      refine .ite (fun _ => ?_) fun hin => .ite (fun _ => ?_) fun _ => ?_
      · exact giveUp_follows h hm (print_grows s (by decide))
      · exact giveUp_follows ⟨h.counted, fun ht => absurd ht (by simp), h.outfile⟩ hm
          (hnext.trans_lt (print_grows _ (by decide)))
      · obtain ⟨hok, hlive⟩ := setIn_ok h (not_not.mp hin) hm (some (cstr (next s).word))
        exact (cmdLoop_follows n _ hok hlive).imp fun _ _ hr => ⟨hr.same, hr.state, hr.kept.after hfile⟩
    · rw [cmdLoop_out hla, Shell.cmdLoop_out hla]
      refine .ite (fun _ => ?_) fun hout => .ite (fun _ => ?_) fun _ => ?_
      · exact giveUp_follows h hm (print_grows s (by decide))
      · exact giveUp_follows ⟨h.counted, h.infile, fun ht => absurd ht (Token.toFile_ne hla).2.2⟩ hm
          (hnext.trans_lt (print_grows _ (by decide)))
      · obtain ⟨hok, hlive⟩ := setOut_ok h hla (not_not.mp hout) hm (some (cstr (next s).word))
        exact (cmdLoop_follows n _ hok hlive).imp fun _ _ hr => ⟨hr.same, hr.state, hr.kept.after hfile⟩
    · rw [cmdLoop_word hla, Shell.cmdLoop_word hla]
      refine (addArg_follows h hm s.word).bind ?_
      rintro ⟨d, m₁⟩ _ ⟨rfl, hok, hlive⟩ - -
      exact (cmdLoop_follows n _ hok hlive).imp fun _ _ hr => ⟨hr.same, hr.state, hr.kept.after hnext⟩
    · rw [cmdLoop_stop hla, Shell.cmdLoop_stop hla]
      exact .both ⟨rfl, rfl, by simpa using h, hm, le_refl _, by simp⟩

theorem setArg_fields {d d' : Cmd} {i : ℕ} {x : Cell} (h : d.setArg i x = some d') :
    d'.nargs = d.nargs ∧ d'.inp = d.inp ∧ d'.out = d.out := by
  unfold Cmd.setArg at h
  split at h
  · obtain rfl := Option.some.inj h
    exact ⟨rfl, rfl, rfl⟩
  · cases h

/-- The array is ended with `NULL`. -/
theorem finish_follows {d : Cmd} {s' : St} (h : { c with cmd := d }.Ok) (hm : m.live = base + own [c])
    (hs : s.printed.length ≤ s'.printed.length) (i : ℕ) :
    Lib.Follows True (Agrees Made.erase (InCmd base s))
      ((d.setArg i .null).map fun e => (Made.cmd { c with cmd := e }, s', m))
      ((d.setArg i .null).map fun e => (.cmd e, s')) := by
  cases hset : d.setArg i .null with
  | none => exact .neither
  | some e =>
    obtain ⟨hnargs, hin, hout⟩ := setArg_fields hset
    refine .both ⟨rfl, rfl, ?_, hm, hs, by simp, by simp⟩
    intro x hx
    obtain rfl := List.mem_singleton.mp hx
    exact ⟨h.counted.trans hnargs.symm, fun ht => h.infile (hin ▸ ht), fun ht => h.outfile (hout ▸ ht)⟩

theorem endCmd_follows {s' : St} (h : c.Ok) (hm : m.live = base + own [c]) (hs : s.printed.length ≤ s'.printed.length) :
    Lib.Follows True (Agrees Made.erase (InCmd base s)) (endCmd c s' m) (Shell.endCmd c.cmd s') := by
  have hnext : s.printed.length ≤ (next s').printed.length := hs.trans (next_grows s')
  refine .ite (fun hla => ?_) fun _ => .ite (fun _ => ?_) fun _ => .ite (fun _ => ?_) fun _ => ?_
  · obtain ⟨m', hfree, hbase⟩ := freeCmd_eq (List.forall_mem_singleton.mpr h) hm
    rw [hfree]
    exact .both ⟨rfl, rfl, by simp [Made.cells], by simpa [Made.cells] using hbase, hs, fun _ => .inr hla, by simp⟩
  · exact finish_follows h hm hnext _
  · exact finish_follows (d := { c.cmd with exec := .tamp }) ⟨h.counted, h.infile, h.outfile⟩ hm hnext _
  · exact finish_follows h hm hs _

/-- **`mkCmd`**: what is live more is the command. -/
theorem mkCmd_follows (n : ℕ) (inpipe : Token) (s : St) (hm : m.live = base) :
    Lib.Follows True (Agrees Made.erase (InCmd base s)) (mkCmd n inpipe s m) (Shell.mkCmd n inpipe s) := by
  refine .bind_eq fun s₁ hskip => ?_
  have hs : s.printed.length ≤ s₁.printed.length := skipCmdTokens_grows hskip
  have hnone : m.live = base + own [] := by rw [hm, own_nil, add_zero]
  refine .ite (fun _ => .ite (fun hla => ?_) fun hend => .ite (fun hla => ?_) fun hother => ?_) fun _ => ?_
  · exact .both ⟨rfl, rfl, by simp [Made.cells], hnone, hs, by simp, by simp⟩
  · refine .both ⟨rfl, rfl, by simp [Made.cells], hnone, hs, by simp, fun _ => ?_⟩
    rcases hla with hla | hla <;> simp [hla, Token.endOfInput]
  · have hlt : s.printed.length < (s₁.print errMsg).printed.length := hs.trans_lt (print_grows s₁ (by decide))
    exact .both ⟨rfl, rfl, by simp [Made.cells], hnone, hlt.le, fun _ => .inl hlt, by simp⟩
  · obtain ⟨hok, hlive⟩ := newCmd_ok inpipe s₁.word hm
    refine (cmdLoop_follows n (next s₁) hok hlive).bind ?_
    rintro ⟨r, s₂, m₂⟩ ⟨r', s₂'⟩ ⟨hsame, hstate, hin⟩ - -
    obtain rfl : s₂ = s₂' := hstate
    have hs₂ : s.printed.length ≤ s₂.printed.length := hs.trans ((next_grows s₁).trans hin.grows)
    subst hsame
    cases r with
    | none =>
      refine .both ⟨rfl, rfl, by simp [Made.cells], hin.live, hs₂, fun _ => .inl ?_, by simp⟩
      exact (hs.trans (next_grows s₁)).trans_lt (hin.loud rfl)
    | some d => exact endCmd_follows (hin.ok d (by simp)) hin.live hs₂

end Cmd

/-! ### One pipe -/

/-- Behind the loop of `mkPipe` over the connectors, from `s` on: what is not in the pipe
was lost with it, at an error. -/
structure InPipe (base : Multiset ℕ) (s : St) (p : Option PipeCell) (s' : St) (m : Blocks) : Prop where
  ok : ∀ q ∈ p.toList, ∀ d ∈ q.cmds, d.Ok
  live : ∃ lost, m.live = base + ownPipes p.toList + lost ∧ (p ≠ none → lost = 0)
  grows : s.printed.length ≤ s'.printed.length
  loud : p = none → Loud s s'

section Pipe

variable {n b : ℕ} {base : Multiset ℕ} {type : Ptype} {cmds : List CmdCell} {c : CmdCell} {s s₁ s' : St} {m m' : Blocks}

theorem Loud.skip (h : Loud s s₁) (hskip : skipToEnd n s₁ = some s') : Loud s s' := by
  rcases h with h | h
  · exact .inl (h.trans_le (skipToEnd_grows hskip))
  · cases n with
    | zero => simp [skipToEnd] at hskip
    | succ n =>
      rw [skipToEnd, if_pos (by rw [h]; rfl)] at hskip
      exact .inr (Option.some.inj hskip ▸ h)

theorem own_to (c : CmdCell) (t : Ptype) : own [c.to t] = own [c] := rfl

theorem to_ok {t : Ptype} (h : ∀ d ∈ cmds ++ [c], d.Ok) : ∀ d ∈ cmds ++ [c.to t], d.Ok := by
  obtain ⟨hcmds, hc⟩ := List.forall_mem_append.mp h
  refine List.forall_mem_append.mpr ⟨hcmds, List.forall_mem_singleton.mpr ?_⟩
  have hok : c.Ok := hc c List.mem_cons_self
  refine ⟨hok.counted, hok.infile, ?_⟩
  intro hnil
  cases t <;> cases hnil

theorem InPipe.after {p : Option PipeCell} (h : InPipe base s₁ p s' m) (hs : s.printed.length ≤ s₁.printed.length) :
    InPipe base s p s' m where
  ok := h.ok
  live := h.live
  grows := hs.trans h.grows
  loud hp := (h.loud hp).after hs

/-- The pipe is as it is. -/
theorem InPipe.done {p : PipeCell} (hok : ∀ d ∈ p.cmds, d.Ok) (hm : m.live = base + (p.block ::ₘ own p.cmds))
    (hs : s.printed.length ≤ s'.printed.length) : InPipe base s (some p) s' m where
  ok := by simpa using hok
  live := ⟨0, by simpa using hm, fun _ => rfl⟩
  grows := hs
  loud hp := by simp at hp

/-- The pipe is given up, with all that is live. -/
theorem InPipe.lost {lost : Multiset ℕ} (hm : m.live = base + lost) (hs : s.printed.length ≤ s'.printed.length)
    (hloud : Loud s s') : InPipe base s none s' m where
  ok := by simp
  live := ⟨lost, by simpa using hm, by simp⟩
  grows := hs
  loud _ := hloud

theorem lost_follows {lost : Multiset ℕ} (hm : m.live = base + lost) (hs : s.printed.length ≤ s₁.printed.length)
    (hloud : Loud s s₁) :
    Lib.Follows True (Agrees (Option.map PipeCell.pipe) (InPipe base s)) ((skipToEnd n s₁).map fun s => (none, s, m))
      ((skipToEnd n s₁).map fun s => (none, s)) := by
  cases hskip : skipToEnd n s₁ with
  | none => exact .neither
  | some s₂ =>
    have hs₂ : s.printed.length ≤ s₂.printed.length := hs.trans (skipToEnd_grows hskip)
    exact .both ⟨rfl, rfl, .lost hm hs₂ (hloud.skip hskip)⟩

theorem pipeLoop_stop (h : s.la.pipeToken = false) :
    pipeLoop (n + 1) b type cmds c s m = some (some ⟨type, cmds ++ [c], false, b⟩, s, m) := by
  rw [pipeLoop, h]
  rfl

theorem pipeLoop_ambiguous (h : s.la.pipeToken = true) (hout : c.cmd.out ≠ .tnil) :
    pipeLoop (n + 1) b type cmds c s m =
      (skipLine n (s.print "Ambiguous output redirect.\n")).bind fun s =>
        (freeCmd [c] m).map fun m => (none, s, m) := by
  rw [pipeLoop, h]
  exact if_pos hout

theorem pipeLoop_join (h : s.la.pipeToken = true) (hout : c.cmd.out = .tnil) :
    pipeLoop (n + 1) b type cmds c s m =
      (mkCmd n s.la.ptype.token (next s) m).bind fun r =>
        match r with
        | (.null, s, m) => (skipToEnd n s).map fun s => (none, s, m)
        | (.empty, s, m) => (skipToEnd n (s.print "Invalid null command.\n")).map fun s => (none, s, m)
        | (.ended, u, m) => some (some ⟨s.la.ptype, cmds ++ [c.to s.la.ptype], true, b⟩, u, m)
        | (.cmd d, u, m) => pipeLoop n b s.la.ptype (cmds ++ [c.to s.la.ptype]) d u m := by
  rw [pipeLoop, h]
  exact if_neg (not_not.mpr hout)

/-- The last command is freed, and the others are lost. -/
theorem ambiguous_follows (h : s.la.pipeToken = true) (hout : c.cmd.out ≠ .tnil) (hok : c.Ok)
    (hm : m.live = base + (b ::ₘ own (cmds ++ [c]))) :
    Lib.Follows True (Agrees (Option.map PipeCell.pipe) (InPipe base s)) (pipeLoop (n + 1) b type cmds c s m)
      (Shell.pipeLoop (n + 1) type (cmds.map CmdCell.cmd) c.cmd s) := by
  have hsplit : m.live = base + (b ::ₘ own cmds) + own [c] := by
    rw [hm, own_append, ← Multiset.cons_add, add_assoc]
  obtain ⟨m₁, hfree, hlive⟩ := freeCmd_eq (List.forall_mem_singleton.mpr hok) hsplit
  rw [pipeLoop_ambiguous h hout, Shell.pipeLoop_ambiguous h hout]
  cases hskip : skipLine n (s.print "Ambiguous output redirect.\n") with
  | none => exact .neither
  | some s₁ =>
    have hlt : s.printed.length < s₁.printed.length :=
      (print_grows s (by decide)).trans_le (skipLine_grows hskip)
    rw [Option.bind_some, hfree]
    exact .both ⟨rfl, rfl, .lost hlive hlt.le (.inl hlt)⟩

/-- **The loop over the connectors**, with the commands so far in hand. -/
theorem pipeLoop_follows : ∀ (n : ℕ) {type : Ptype} {cmds : List CmdCell} {c : CmdCell} (s : St) {m : Blocks},
    (∀ d ∈ cmds ++ [c], d.Ok) → m.live = base + (b ::ₘ own (cmds ++ [c])) →
    Lib.Follows True (Agrees (Option.map PipeCell.pipe) (InPipe base s)) (pipeLoop n b type cmds c s m)
      (Shell.pipeLoop n type (cmds.map CmdCell.cmd) c.cmd s)
  | 0, _, _, _, _, _, _, _ => .neither
  | n + 1, type, cmds, c, s, m, hok, hm => by
    cases hla : s.la.pipeToken with
    | false =>
      rw [pipeLoop_stop hla, Shell.pipeLoop_stop hla]
      exact .both ⟨by simp [PipeCell.pipe], rfl, .done hok hm (le_refl _)⟩
    | true =>
      by_cases hout : c.cmd.out = .tnil
      · have hcmds : (cmds ++ [c.to s.la.ptype]).map CmdCell.cmd =
            cmds.map CmdCell.cmd ++ [{ c.cmd with out := s.la.ptype.token }] := List.map_append
        rw [pipeLoop_join hla hout, Shell.pipeLoop_join hla hout, ← hcmds]
        refine (mkCmd_follows n _ (next s) rfl).bind ?_
        rintro ⟨r, s₁, m₁⟩ ⟨_, _⟩ ⟨rfl, rfl, hin⟩ - -
        have hs : s.printed.length ≤ s₁.printed.length := (next_grows s).trans hin.grows
        have hlive : m₁.live = base + (b ::ₘ own (cmds ++ [c.to s.la.ptype])) + own r.cells := by
          rw [hin.live, hm, own_append, own_append, own_to]
        cases r with
        | null => exact lost_follows (hlive.trans (add_zero _)) hs ((hin.loud rfl).after (next_grows s))
        | empty =>
          have hlt : s.printed.length < (s₁.print "Invalid null command.\n").printed.length :=
            hs.trans_lt (print_grows s₁ (by decide))
          exact lost_follows (hlive.trans (add_zero _)) hlt.le (.inl hlt)
        | ended => exact .both ⟨rfl, rfl, .done (to_ok hok) (hlive.trans (add_zero _)) hs⟩
        | cmd d =>
          have hmore : m₁.live = base + (b ::ₘ own (cmds ++ [c.to s.la.ptype] ++ [d])) := by
            rw [hlive, own_append _ [d], ← Multiset.cons_add, add_assoc]
            rfl
          have hall : ∀ e ∈ cmds ++ [c.to s.la.ptype] ++ [d], e.Ok :=
            List.forall_mem_append.mpr ⟨to_ok hok, hin.ok⟩
          exact (pipeLoop_follows n s₁ hall hmore).imp fun _ _ hr => ⟨hr.same, hr.state, hr.kept.after hs⟩
      · exact ambiguous_follows hla hout (hok c (by simp)) hm

end Pipe

/-! ### The pipes of a line -/

/-- What is live more is in hand, or an error was printed or read. -/
def Balanced (base own : Multiset ℕ) (s s' : St) (m : Blocks) : Prop :=
  ∃ lost, m.live = base + own + lost ∧ (lost = 0 ∨ Loud s s')

/-- Behind `mkPipe`, from `s` on. -/
structure InPipes (base : Multiset ℕ) (s : St) (ps : List PipeCell) (s' : St) (m : Blocks) : Prop where
  ok : ∀ p ∈ ps, ∀ d ∈ p.cmds, d.Ok
  balanced : Balanced base (ownPipes ps) s s' m
  grows : s.printed.length ≤ s'.printed.length
  -- the line is left before its end only with an error
  ended : s'.la.endOfInput = true ∨ s.printed.length < s'.printed.length

section Pipes

variable {n : ℕ} {base : Multiset ℕ} {s s₁ s' : St} {m m₁ m' : Blocks} {p : PipeCell} {ps qs : List PipeCell}

theorem Loud.ended (h : Loud s s') : s'.la.endOfInput = true ∨ s.printed.length < s'.printed.length := by
  rcases h with h | h
  · exact .inr h
  · exact .inl (by rw [h]; rfl)

theorem InPipes.none {lost : Multiset ℕ} (hm : m.live = base + lost) (hlost : lost = 0 ∨ Loud s s')
    (hs : s.printed.length ≤ s'.printed.length)
    (hend : s'.la.endOfInput = true ∨ s.printed.length < s'.printed.length) : InPipes base s [] s' m where
  ok := by simp
  balanced := ⟨lost, by simpa using hm, hlost⟩
  grows := hs
  ended := hend

/-- A pipe, and those behind it. -/
theorem InPipes.cons (hok : ∀ d ∈ p.cmds, d.Ok) (h : InPipes (base + (p.block ::ₘ own p.cmds)) s₁ ps s' m)
    (hs : s.printed.length ≤ s₁.printed.length) : InPipes base s (p :: ps) s' m where
  ok := List.forall_mem_cons.mpr ⟨hok, h.ok⟩
  balanced := by
    obtain ⟨lost, hlive, hlost⟩ := h.balanced
    refine ⟨lost, ?_, hlost.imp_right fun hl => hl.after hs⟩
    rw [hlive, ownPipes_cons, add_assoc base]
  grows := hs.trans h.grows
  ended := h.ended.imp_right fun hlt => hs.trans_lt hlt

/-- `p->next` is assigned again: the pipes behind it are lost. -/
theorem InPipes.again (h : InPipes base s qs s₁ m₁) (hend : s₁.la.endOfInput = false)
    (h' : InPipes m₁.live s₁ ps s' m) : InPipes base s ps s' m where
  ok := h'.ok
  balanced := by
    have hlt : s.printed.length < s₁.printed.length := h.ended.resolve_left (by simp [hend])
    obtain ⟨lost, hlive, -⟩ := h.balanced
    obtain ⟨lost', hlive', -⟩ := h'.balanced
    refine ⟨ownPipes qs + lost + lost', ?_, .inr (.inl (hlt.trans_le h'.grows))⟩
    rw [hlive', hlive]
    ac_rfl
  grows := h.grows.trans h'.grows
  ended := h'.ended.imp_right fun hlt => h.grows.trans_lt hlt

/-- **The pipes of a line.** `mkPipe` and its loop call each other, so they are followed
together. -/
theorem pipes_follow : ∀ (n : ℕ) (s : St) {m : Blocks} {base : Multiset ℕ}, m.live = base →
    Lib.Follows True (Agrees (List.map PipeCell.pipe) (InPipes base s)) (mkPipe n s m) (Shell.mkPipe n s) ∧
    Lib.Follows True (Agrees (List.map PipeCell.pipe) (InPipes base s)) (nextPipes n s m) (Shell.nextPipes n s)
  | 0, _, _, _, _ => ⟨.neither, .neither⟩
  | n + 1, s, m, base, hm => by
    constructor
    · refine (mkCmd_follows n .tnil s hm).bind ?_
      rintro ⟨r, s₁, m₁⟩ ⟨_, _⟩ ⟨rfl, rfl, hin⟩ - -
      cases r with
      | null => exact .both ⟨rfl, rfl, .none hin.live (.inl rfl) hin.grows (hin.loud rfl).ended⟩
      | empty => exact .both ⟨rfl, rfl, .none hin.live (.inl rfl) hin.grows (.inl (hin.ended rfl))⟩
      | ended =>
        have hpipe : m₁.malloc.2.live = base + (m₁.malloc.1 ::ₘ own []) := by
          rw [Blocks.malloc_live, hin.live, Multiset.add_cons]
          rfl
        refine (pipes_follow n s₁ hpipe).2.map fun r r' hr _ => ?_
        exact ⟨congrArg _ hr.same, hr.state, .cons (by simp) hr.kept hin.grows⟩
      | cmd c =>
        have hpipe : m₁.malloc.2.live = base + (m₁.malloc.1 ::ₘ own ([] ++ [c])) := by
          rw [Blocks.malloc_live, hin.live, Multiset.add_cons]
          rfl
        refine (pipeLoop_follows n s₁ hin.ok hpipe).bind ?_
        rintro ⟨q, s₂, m₂⟩ ⟨_, _⟩ ⟨rfl, rfl, hq⟩ - -
        obtain ⟨lost, hlive, hlost⟩ := hq.live
        have hs : s.printed.length ≤ s₂.printed.length := hin.grows.trans hq.grows
        cases q with
        | none =>
          have hloud : Loud s s₂ := (hq.loud rfl).after hin.grows
          exact .both ⟨rfl, rfl, .none (by simpa using hlive) (.inr hloud) hs hloud.ended⟩
        | some q =>
          have hbase : m₂.live = base + (q.block ::ₘ own q.cmds) := by simpa [hlost] using hlive
          refine (pipes_follow n s₂ hbase).2.map fun r r' hr _ => ?_
          exact ⟨congrArg _ hr.same, hr.state, .cons (hq.ok q (by simp)) hr.kept hs⟩
    · refine .ite (fun hend => ?_) fun _ => ?_
      · exact .both ⟨rfl, rfl, .none (by rw [hm, add_zero]) (.inl rfl) (le_refl _) (.inl hend)⟩
      · refine (pipes_follow n s hm).1.bind ?_
        rintro ⟨qs, s₁, m₁⟩ ⟨_, _⟩ ⟨rfl, rfl, hin⟩ - -
        by_cases hnil : qs = []
        · rw [if_pos hnil, if_pos (List.map_eq_nil_iff.mpr hnil)]
          exact .both ⟨rfl, rfl, hin⟩
        · rw [if_neg hnil, if_neg fun h => hnil (List.map_eq_nil_iff.mp h)]
          refine .ite (fun _ => .both ⟨rfl, rfl, hin⟩) fun hend => ?_
          refine (pipes_follow n s₁ rfl).2.imp fun r r' hr => ⟨hr.same, hr.state, ?_⟩
          exact hin.again (Bool.eq_false_iff.mpr hend) hr.kept

end Pipes

/-! ### The loop of `main` -/

/-- The call of `parse` from `s` to `s'` printed nothing, and read no token that is an error. -/
def Silent (s s' : St) : Prop := s'.printed = s.printed ∧ s'.la ≠ .terror

theorem parse_follows (s : St) (m : Blocks) : ∃ ps s' m', parse s m = some (ps, s', m') ∧
    Shell.parse s = some (ps.map PipeCell.pipe, s') ∧ (∀ p ∈ ps, ∀ c ∈ p.cmds, c.Ok) ∧
    Balanced m.live (ownPipes ps) s s' m' := by
  obtain ⟨qs, s', hparse, -⟩ := parse_ok s
  have hfollows := (pipes_follow (2 * s.input.length + 6) (next s) (m := m) rfl).1
  rw [show Shell.mkPipe (2 * s.input.length + 6) (next s) = some (qs, s') from hparse] at hfollows
  obtain ⟨⟨ps, s₁, m'⟩, hmade, ⟨rfl, rfl, hin⟩⟩ := hfollows.returns trivial
  obtain ⟨lost, hlive, hlost⟩ := hin.balanced
  exact ⟨ps, s₁, m', hmade, hparse, hin.ok, lost, hlive, hlost.imp_right fun h => h.after (next_grows s)⟩

/-- Every call of `parse` for the first `n` lines was silent. -/
def AllSilent (n : ℕ) (s : St) : Prop :=
  ∀ k < n, ∀ s₁ s₂, Shell.calls k s = some s₁ → Shell.calls (k + 1) s = some s₂ → Silent s₁ s₂

theorem Silent.not_loud {s s' : St} (h : Silent s s') : ¬ Loud s s' := by
  intro hloud
  rcases hloud with hlt | herr
  · rw [h.1] at hlt
    exact lt_irrefl _ hlt
  · exact h.2 herr

theorem calls_follow (s : St) (m : Blocks) (n : ℕ) : ∃ s' m', calls n s m = some (s', m') ∧
    Shell.calls n s = some s' ∧ m.live ≤ m'.live ∧ (AllSilent n s → m'.live = m.live) := by
  induction n with
  | zero => exact ⟨s, m, rfl, rfl, le_refl _, fun _ => rfl⟩
  | succ n ih =>
    obtain ⟨s₁, m₁, hcalls, hpure, hle, hall⟩ := ih
    obtain ⟨ps, s₂, m₂, hparse, hparse', hok, lost, hlive, hlost⟩ := parse_follows s₁ m₁
    obtain ⟨m₃, hfree, hrest⟩ := freePipe_eq hok (hlive.trans (add_right_comm _ _ _))
    have hnext : Shell.calls (n + 1) s = some s₂ := by
      rw [Shell.calls, hpure, Option.bind_some, hparse', Option.map_some]
    refine ⟨s₂, m₃, ?_, hnext, ?_, ?_⟩
    · rw [calls, hcalls, Option.bind_some, hparse, Option.bind_some, hfree, Option.map_some]
    · rw [hrest]
      exact hle.trans (Multiset.le_add_right _ _)
    · intro hsilent
      have hnone : lost = 0 := hlost.resolve_right (hsilent n (Nat.lt_succ_self n) s₁ s₂ hpure hnext).not_loud
      rw [hrest, hnone, add_zero]
      exact hall fun k hk => hsilent k (Nat.lt_succ_of_lt hk)

/-- **The storage of lines.** However many lines are parsed, and their pipes freed: no block is
freed that is not live, so none is freed twice; the parser is where it would be without the
storage; what was live is live still, and is all that is live if each call of `parse` was
silent. The pipes of the next line are then those without the storage, in blocks that are
live, each its own and none of those from before. -/
theorem lines_freed (s : St) (m : Blocks) (n : ℕ) : ∃ s' m', calls n s m = some (s', m') ∧
    Shell.calls n s = some s' ∧ m.live ≤ m'.live ∧ (AllSilent n s → m'.live = m.live) ∧
    ∃ ps s'' m'', parse s' m' = some (ps, s'', m'') ∧ Shell.parse s' = some (ps.map PipeCell.pipe, s'') ∧
      (m'.live + ownPipes ps).Nodup ∧ m'.live + ownPipes ps ≤ m''.live := by
  obtain ⟨s', m', hcalls, hpure, hle, hall⟩ := calls_follow s m n
  obtain ⟨ps, s'', m'', hparse, hparse', -, lost, hlive, -⟩ := parse_follows s' m'
  have hheld : m'.live + ownPipes ps ≤ m''.live := hlive ▸ Multiset.le_add_right _ _
  exact ⟨s', m', hcalls, hpure, hle, hall, ps, s'', m'', hparse, hparse', Multiset.nodup_of_le hheld m''.nodup, hheld⟩

/-- A pipe without its second command: the first is lost with its array and its word, and so
is the pipe. -/
example : (calls 1 (.init "a |\n".toList) Blocks.none).map (fun r => r.2.live.card) = some 4 := by decide +kernel

end Storage
end Shell
end Csc501

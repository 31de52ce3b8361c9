/-
# Command lines, written out and read back

A command line is a list of pipelines: commands with connectors between them, a
file to read from at the first, one to write to at the last, and `;` or `&`
behind it. It is written with a backslash in front of each byte of each word, so
that blanks, quotes, newlines and operators may occur in the words, with one
blank between two tokens and a newline at the end (`layout`).

`parse` reads it back (`parse_render`): pipe for pipe and command for command
what was written, as far as a user of `parse.h` sees it (`Cmd.view`: the
arguments up to `NULL`, not the rest of their array), with nothing printed and
the reading stopped behind the newline.

Key definitions: `Word`, `Command`, `Pipeline`, `Pipeline.pieces`, `layout`, `CmdView`, `Pipeline.view`.
Key theorems: `scanWord_escape`, `nextToken_piece`, `ahead_layout`, `mkCmd_pieces`, `pipeLoop_pieces`,
`nextPipes_pieces`, `parse_render`.
-/
import Csc501.Shell.WellFormed

namespace Csc501
namespace Shell

open Lib

/-! ### Command lines -/

/-- A word that fits the buffer and has no NUL in it. -/
structure Word where
  text : Text
  ne_nil : text ≠ []
  length_le : text.length ≤ bufSize
  bytes : ∀ c ∈ text, 1 ≤ c.toNat ∧ c.toNat ≤ 127
  deriving DecidableEq

/-- A command: its first word and the others. -/
structure Command where
  word : Word
  args : List Word
  deriving DecidableEq

/-- Where the output may go. -/
inductive Redirect
  | out
  | app
  | outErr
  | appErr
  deriving DecidableEq, Repr

def Redirect.token : Redirect → Token
  | .out => .tout
  | .app => .tapp
  | .outErr => .toutErr
  | .appErr => .tappErr

/-- A pipeline: the first command, the others with the connectors in front of
them, the files, and whether it ends with `&`. -/
structure Pipeline where
  first : Command
  infile : Option Word
  more : List (Ptype × Command)
  outfile : Option (Redirect × Word)
  amp : Bool
  deriving DecidableEq

/-! ### Writing -/

/-- A token that is written: a word or an operator. -/
inductive Piece
  | word (w : Word)
  | op (t : Token)
  deriving DecidableEq

/-- Each byte with a backslash in front of it. -/
def escape (w : Text) : Text := w.flatMap fun c => ['\\', c]

/-- The operators. -/
def Token.text : Token → Text
  | .tamp => ['&']
  | .tpipe => ['|']
  | .tsemi => [';']
  | .tin => ['<']
  | .tout => ['>']
  | .tapp => ['>', '>']
  | .tpipeErr => ['|', '&']
  | .toutErr => ['>', '&']
  | .tappErr => ['>', '>', '&']
  | _ => []

def Piece.text : Piece → Text
  | .word w => escape w.text
  | .op t => t.text

/-- The tokens of a line, with a blank after each but the last, and a newline. -/
def layout : List Piece → Text
  | [] => ['\n']
  | [x] => x.text ++ ['\n']
  | x :: y :: l => x.text ++ ' ' :: layout (y :: l)

def Command.pieces (c : Command) : List Piece := .word c.word :: c.args.map .word

/-- `< file`. -/
def inPieces : Option Word → List Piece
  | none => []
  | some f => [.op .tin, .word f]

/-- `> file`, or with another of the operators. -/
def outPieces : Option (Redirect × Word) → List Piece
  | none => []
  | some (r, f) => [.op r.token, .word f]

/-- What follows the first command and its file. -/
def morePieces (outfile : Option (Redirect × Word)) (term : Token) : List (Ptype × Command) → List Piece
  | [] => outPieces outfile ++ [.op term]
  | (t, c) :: l => .op t.token :: (c.pieces ++ morePieces outfile term l)

/-- The token behind a pipeline. -/
def Pipeline.term (p : Pipeline) : Token := if p.amp then .tamp else .tsemi

def Pipeline.pieces (p : Pipeline) : List Piece :=
  p.first.pieces ++ (inPieces p.infile ++ morePieces p.outfile p.term p.more)

/-- The text of a command line. -/
def render (l : List Pipeline) : Text := layout (l.flatMap Pipeline.pieces)

/-! ### What is to be read -/

/-- A command as its user sees it: `argv` is the arguments, with `NULL` behind them. -/
structure CmdView where
  exec : Token
  inp : Token
  out : Token
  infile : Option Text
  outfile : Option Text
  nargs : ℕ
  argv : List Cell
  deriving DecidableEq, Repr

def Cmd.view (c : Cmd) : CmdView :=
  ⟨c.exec, c.inp, c.out, c.infile, c.outfile, c.nargs, c.args.take (c.nargs + 1)⟩

/-- The type of a pipe, its commands, and whether they end in `End`. -/
def Pipe.view (p : Pipe) : Ptype × List CmdView × Bool := (p.type, p.cmds.map Cmd.view, p.atEnd)

/-- The `in` of a command behind `inpipe`. -/
def inToken (inpipe : Token) : Option Word → Token
  | none => inpipe
  | some _ => .tin

def outToken : Option (Redirect × Word) → Token
  | none => .tnil
  | some (r, _) => r.token

/-- A command that is written with its files, up to the `NULL` behind its arguments. -/
def Command.view (exec inpipe out : Token) (infile : Option Word) (outfile : Option (Redirect × Word))
    (c : Command) : CmdView :=
  ⟨exec, inToken inpipe infile, out, infile.map Word.text, outfile.map fun x => x.2.text, c.args.length + 1,
    .word c.word.text :: c.args.map (fun w => .word w.text) ++ [.null]⟩

/-- The commands of a pipeline from one on, with the connectors on both sides. -/
def views (exec : Token) (outfile : Option (Redirect × Word)) :
    Token → Option Word → Command → List (Ptype × Command) → List CmdView
  | inpipe, infile, c, [] => [c.view exec inpipe (outToken outfile) infile outfile]
  | inpipe, infile, c, (t, d) :: l =>
    c.view .tsemi inpipe t.token infile none :: views exec outfile t.token none d l

/-- The type of a pipe is that of its last connector. -/
def lastType : Ptype → List (Ptype × Command) → Ptype
  | type, [] => type
  | _, (t, _) :: l => lastType t l

/-- The pipe for a pipeline. -/
def Pipeline.view (p : Pipeline) : Ptype × List CmdView × Bool :=
  (lastType .pout p.more, views p.term p.outfile .tnil p.infile p.first p.more, false)

/-! ### Tokens, read back -/

/-- The token of a piece. -/
def Piece.token : Piece → Token
  | .word _ => .tword
  | .op t => t

/-- What a piece leaves in the buffer. -/
def Piece.buffer : Piece → Text
  | .word w => w.text
  | .op _ => []

/-- The operators that can be written. -/
def Token.isOp (t : Token) : Bool := !t.text.isEmpty

theorem escape_cons (c : Char) (w : Text) : escape (c :: w) = '\\' :: c :: escape w := rfl

theorem isNegative_of_le {c : Char} (h : c.toNat ≤ 127) : isNegative c = false := by
  simp only [isNegative, decide_eq_false_iff_not]
  omega

/-- **An escaped word is read up to the blank or the newline behind it**; a blank is
taken off with it. -/
theorem scanWord_escape {sep : Char} (hsep : sep = ' ' ∨ sep = '\n') (u : Text) : ∀ (w acc : Text),
    (∀ c ∈ w, 1 ≤ c.toNat ∧ c.toNat ≤ 127) → acc.length + w.length ≤ bufSize →
    scanWord .plain acc (escape w ++ sep :: u) = .word (acc ++ w) (if sep = ' ' then u else sep :: u)
  | [], acc, _, _ => by
    rcases hsep with rfl | rfl
    · simp [escape, scanWord, isNegative, isBlank]
    · simp [escape, scanWord, isNegative, isBlank, endsWord]
  | c :: w, acc, hb, hlen => by
    have hneg := isNegative_of_le (hb c List.mem_cons_self).2
    have hlt : acc.length < bufSize := by
      simp only [List.length_cons] at hlen
      omega
    have ih := scanWord_escape hsep u w (acc ++ [c]) (fun x hx => hb x (List.mem_cons_of_mem _ hx)) (by
      simp only [List.length_append, List.length_cons, List.length_nil] at hlen ⊢
      omega)
    have hstep : ∀ v : Text, scanWord .plain acc ('\\' :: c :: v) = scanWord .plain (acc ++ [c]) v := by
      intro v
      have hbs : isNegative '\\' = false := rfl
      simp [scanWord, hbs, hneg, hlt, isBlank, isQuote, endsWord]
    rw [escape_cons, List.cons_append, List.cons_append, hstep, ih, List.append_assoc]
    rfl

/-- A word is read as it was written. -/
theorem nextToken_word {sep : Char} (hsep : sep = ' ' ∨ sep = '\n') (w : Word) (u : Text) :
    nextToken (escape w.text ++ sep :: u) = ⟨.tword, w.text, if sep = ' ' then u else sep :: u, []⟩ := by
  have hscan := scanWord_escape hsep u w.text [] w.bytes (by simpa using w.length_le)
  obtain ⟨c, v, hcv⟩ := List.exists_cons_of_ne_nil w.ne_nil
  have hnext : ∀ v : Text, nextToken ('\\' :: v) = wordLexeme (scanWord .plain [] ('\\' :: v)) := by
    intro v
    simp [nextToken, isNegative, isBlank]
  rw [hcv, escape_cons, List.cons_append] at hscan ⊢
  rw [hnext, hscan]
  rfl

/-- An operator is read as it was written. -/
theorem nextToken_op {sep : Char} (hsep : sep = ' ' ∨ sep = '\n') {t : Token} (ht : t.isOp = true) (u : Text) :
    nextToken (t.text ++ sep :: u) = ⟨t, [], sep :: u, []⟩ := by
  rcases hsep with rfl | rfl
  · cases t <;> first | exact absurd ht (by decide) | rfl
  · cases t <;> first | exact absurd ht (by decide) | rfl

/-- From `u` on the pieces are read, then a newline, and `rest` is left. -/
def Ahead (rest : Text) : List Piece → Text → Prop
  | [], u => nextToken u = ⟨.tnl, [], rest, []⟩
  | x :: l, u => ∃ v, nextToken u = ⟨x.token, x.buffer, v, []⟩ ∧ Ahead rest l v

/-- A blank in front does not matter. -/
theorem Ahead.blank {rest : Text} {l : List Piece} {u : Text} (h : Ahead rest l u) : Ahead rest l (' ' :: u) := by
  have hskip : nextToken (' ' :: u) = nextToken u := by simp [nextToken, isNegative, isBlank]
  cases l with
  | nil => exact hskip.trans h
  | cons x l =>
    obtain ⟨v, hv, hl⟩ := h
    exact ⟨v, hskip.trans hv, hl⟩

/-- The pieces that are written are words and operators. -/
def Piece.Ok : Piece → Prop
  | .word _ => True
  | .op t => t.isOp = true

theorem nextToken_piece {sep : Char} (hsep : sep = ' ' ∨ sep = '\n') {x : Piece} (hx : x.Ok) {rest : Text}
    {l : List Piece} {u : Text} (h : Ahead rest l (if sep = ' ' then u else sep :: u)) :
    Ahead rest (x :: l) (x.text ++ sep :: u) := by
  cases x with
  | word w => exact ⟨_, nextToken_word hsep w u, h⟩
  | op t =>
    refine ⟨_, nextToken_op hsep hx u, ?_⟩
    rcases hsep with rfl | rfl
    · exact h.blank
    · exact h

/-- **What is written is read, token by token.** -/
theorem ahead_layout (rest : Text) : ∀ {l : List Piece}, (∀ x ∈ l, x.Ok) → Ahead rest l (layout l ++ rest)
  | [], _ => by simp [Ahead, layout, nextToken, isNegative, isBlank, Lexeme.of]
  | [x], hl => by
    rw [layout, List.append_assoc]
    apply nextToken_piece (.inr rfl) (hl x List.mem_cons_self)
    exact ahead_layout rest (l := []) (by simp)
  | x :: y :: l, hl => by
    rw [layout, List.append_assoc]
    apply nextToken_piece (.inl rfl) (hl x List.mem_cons_self)
    exact ahead_layout rest fun z hz => hl z (List.mem_cons_of_mem _ hz)

/-! ### Commands, read back -/

/-- The parser is at the first of the pieces, and has printed `o`. -/
def At (rest o : Text) : List Piece → St → Prop
  | [], s => s.la = .tnl ∧ s.input = rest ∧ s.printed = o
  | x :: l, s => s.la = x.token ∧ s.word = x.buffer ∧ Ahead rest l s.input ∧ s.printed = o

section Reading

variable {rest o : Text} {l : List Piece} {s s' : St}

theorem Ahead.at (h : Ahead rest l s.input) (ho : s.printed = o) : At rest o l (next s) := by
  cases l with
  | nil =>
    have hn : nextToken s.input = ⟨.tnl, [], rest, []⟩ := h
    simp [At, next, hn, ho]
  | cons x l =>
    obtain ⟨v, hv, hl⟩ := h
    simpa [At, next, hv, ho] using hl

theorem At.next {x : Piece} (h : At rest o (x :: l) s) : At rest o l (next s) := h.2.2.1.at h.2.2.2

/-- A command so far, without the `NULL`. -/
def Cmd.sofar (c : Cmd) : CmdView := ⟨c.exec, c.inp, c.out, c.infile, c.outfile, c.nargs, c.args.take c.nargs⟩

theorem Word.cstr_text (w : Word) : cstr w.text = w.text := by
  apply cstr_eq_self
  intro h
  exact absurd (w.bytes _ h).1 (by decide)

/-- A command with an argument more. -/
def CmdView.add (v : CmdView) (w : Word) : CmdView :=
  { v with nargs := v.nargs + 1, argv := v.argv ++ [.word w.text] }

theorem sofar_grow {inpipe : Token} {c : Cmd} (h : c.Ok inpipe) : c.grow.sofar = c.sofar := by
  unfold Cmd.grow
  split_ifs
  · simp only [Cmd.sofar]
    rw [List.take_append_of_le_length (h.length ▸ h.room.le)]
  · rfl

theorem addArg_sofar {inpipe : Token} {c c' : Cmd} {w : Text} (h : c.Ok inpipe) (hc : c.addArg w = some c') :
    c'.sofar = { c.sofar with nargs := c.nargs + 1, argv := c.sofar.argv ++ [.word (cstr w)] } := by
  obtain ⟨hg, hroom⟩ := h.grow
  have hlt : c.nargs < c.grow.args.length := by
    rw [hg.length]
    omega
  rw [← sofar_grow h]
  unfold Cmd.addArg Cmd.setArg at hc
  split_ifs at hc
  · cases hc
    simp only [Cmd.sofar, nargs_grow]
    rw [List.take_succ_eq_append_getElem (by simpa using hlt), List.take_set_of_le (le_refl _)]
    simp
  · exact absurd hc (by simp)

/-- The `NULL` behind the arguments. -/
theorem setArg_null_view {inpipe exec : Token} {c c' : Cmd} (h : c.Ok inpipe)
    (hc : { c with exec := exec }.setArg c.nargs .null = some c') :
    c'.view = { c.sofar with exec := exec, argv := c.sofar.argv ++ [.null] } := by
  unfold Cmd.setArg at hc
  split_ifs at hc
  cases hc
  have hlt : c.nargs < c.args.length := by
    rw [h.length]
    exact h.room
  simp only [Cmd.view, Cmd.sofar]
  rw [List.take_succ_eq_append_getElem (by simpa using hlt), List.take_set_of_le (le_refl _)]
  simp

/-- The words behind the first one. -/
theorem cmdLoop_words {inpipe : Token} {r : Option Cmd × St} : ∀ (ws : List Word) {n : ℕ} {c : Cmd} {s : St},
    At rest o (ws.map .word ++ l) s → c.Ok inpipe → cmdLoop n c s = some r →
    ∃ n' c' s', At rest o l s' ∧ c'.Ok inpipe ∧ c'.sofar = ws.foldl .add c.sofar ∧ cmdLoop n' c' s' = some r
  | [], n, c, s, h, hc, hr => ⟨n, c, s, h, hc, rfl, hr⟩
  | w :: ws, n, c, s, h, hc, hr => by
    cases n with
    | zero => exact absurd hr (by simp [cmdLoop])
    | succ n =>
      obtain ⟨c₁, hc₁, hok⟩ := hc.addArg w.text
      have hword : s.word = w.text := h.2.1
      rw [cmdLoop_word h.1, hword, hc₁, Option.bind_some] at hr
      obtain ⟨n', c', s', hat, hok', hso, hr'⟩ := cmdLoop_words ws h.next hok hr
      exact ⟨n', c', s', hat, hok', by rw [hso, addArg_sofar hc hc₁, w.cstr_text]; rfl, hr'⟩

/-- The file to read from. -/
theorem cmdLoop_infile {inpipe : Token} {r : Option Cmd × St} : ∀ (f : Option Word) {n : ℕ} {c : Cmd} {s : St},
    At rest o (inPieces f ++ l) s → c.Ok inpipe → (f ≠ none → c.inp = .tnil) → c.infile = none →
    cmdLoop n c s = some r →
    ∃ n' c' s', At rest o l s' ∧ c'.Ok inpipe ∧
      c'.sofar = { c.sofar with inp := inToken c.inp f, infile := f.map Word.text } ∧ cmdLoop n' c' s' = some r
  | none, n, c, s, h, hc, _, hno, hr => ⟨n, c, s, h, hc, by simp [Cmd.sofar, inToken, hno], hr⟩
  | some f, n, c, s, h, hc, hin, _, hr => by
    cases n with
    | zero => exact absurd hr (by simp [cmdLoop])
    | succ n =>
      have htnil : c.inp = .tnil := hin (by simp)
      have hnext : At rest o (.word f :: l) (next s) := h.next
      have hword : (next s).word = f.text := hnext.2.1
      have hla : (next s).la = .tword := hnext.1
      rw [cmdLoop_in h.1, if_neg (not_not.mpr htnil), if_neg (not_not.mpr hla), hword, f.cstr_text] at hr
      exact ⟨n, _, _, hnext.next, hc.setIn htnil f.text, rfl, hr⟩

theorem Redirect.toFile_token (x : Redirect) : x.token.toFile = true := by cases x <;> rfl

/-- The file to write to. -/
theorem cmdLoop_outfile {inpipe : Token} {r : Option Cmd × St} : ∀ (f : Option (Redirect × Word)) {n : ℕ} {c : Cmd} {s : St},
    At rest o (outPieces f ++ l) s → c.Ok inpipe → c.out = .tnil → c.outfile = none → cmdLoop n c s = some r →
    ∃ n' c' s', At rest o l s' ∧ c'.Ok inpipe ∧
      c'.sofar = { c.sofar with out := outToken f, outfile := f.map fun x => x.2.text } ∧ cmdLoop n' c' s' = some r
  | none, n, c, s, h, hc, hout, hno, hr => ⟨n, c, s, h, hc, by simp [Cmd.sofar, outToken, hno, hout], hr⟩
  | some (x, f), n, c, s, h, hc, hout, _, hr => by
    cases n with
    | zero => exact absurd hr (by simp [cmdLoop])
    | succ n =>
      have hx : s.la = x.token := h.1
      have hnext : At rest o (.word f :: l) (next s) := h.next
      have hword : (next s).word = f.text := hnext.2.1
      have hla : (next s).la = .tword := hnext.1
      have hfile : s.la.toFile = true := hx ▸ x.toFile_token
      rw [cmdLoop_out hfile, if_neg (not_not.mpr hout), if_neg (not_not.mpr hla), hword, f.cstr_text, hx] at hr
      exact ⟨n, _, _, hnext.next, hc.setOut x.toFile_token f.text, rfl, hr⟩

/-- The `exec` of a command, by the token behind it. -/
def Token.exec (t : Token) : Token := if t = .tamp then .tamp else .tsemi

/-- The token behind a command, where it does not belong to it: the `NULL` is
stored, and a `;` or `&` is taken off. -/
theorem endCmd_pieces {inpipe t : Token} {c : Cmd} {r : Made × St} (h : At rest o (.op t :: l) s) (hc : c.Ok inpipe)
    (hexec : c.exec = .tsemi) (ht : t.endOfInput = false) (hr : endCmd c s = some r) :
    ∃ c' s', r = (.cmd c', s') ∧ c'.view = { c.sofar with exec := t.exec, argv := c.sofar.argv ++ [.null] } ∧
      At rest o (if t.cmdToken then l else .op t :: l) s' := by
  have hla : s.la = t := h.1
  have hsame : { c with exec := .tsemi } = c := by rw [← hexec]
  unfold endCmd at hr
  rw [hla] at hr
  split_ifs at hr with h1 h2 h3
  · exact absurd ht (by rw [h1]; decide)
  · subst h2
    obtain ⟨c', hc', rfl⟩ := Option.map_eq_some_iff.mp hr
    exact ⟨c', _, rfl, setArg_null_view hc (hsame ▸ hc'), h.next⟩
  · subst h3
    obtain ⟨c', hc', rfl⟩ := Option.map_eq_some_iff.mp hr
    exact ⟨c', _, rfl, setArg_null_view hc hc', h.next⟩
  · obtain ⟨c', hc', rfl⟩ := Option.map_eq_some_iff.mp hr
    have hexec' : t.exec = .tsemi := if_neg h3
    have hcmd : t.cmdToken = false := by cases t <;> simp_all [Token.cmdToken]
    rw [hexec', hcmd]
    exact ⟨c', _, rfl, setArg_null_view hc (hsame ▸ hc'), h⟩

/-- The words of a command are added one by one. -/
theorem foldl_add (ws : List Word) (v : CmdView) :
    ws.foldl .add v = { v with nargs := v.nargs + ws.length, argv := v.argv ++ ws.map fun w => .word w.text } := by
  induction ws generalizing v with
  | nil => simp
  | cons w ws ih =>
    rw [List.foldl_cons, ih]
    simp [CmdView.add, Nat.add_assoc, Nat.add_comm 1]

/-- **A command is read back**, with its files and the token behind it. -/
theorem mkCmd_pieces {n : ℕ} {inpipe t : Token} {c : Command} {infile : Option Word}
    {outfile : Option (Redirect × Word)} {r : Made × St}
    (h : At rest o (c.pieces ++ (inPieces infile ++ (outPieces outfile ++ .op t :: l))) s)
    (hin : infile ≠ none → inpipe = .tnil) (hne : inpipe ≠ .tin) (ht : t.endOfInput = false) (htc : t.inCmd = false)
    (hr : mkCmd n inpipe s = some r) :
    ∃ c' s', r = (.cmd c', s') ∧ c'.view = c.view t.exec inpipe (outToken outfile) infile outfile ∧
      At rest o (if t.cmdToken then l else .op t :: l) s' := by
  have hla : s.la = .tword := h.1
  have hword : s.word = c.word.text := h.2.1
  cases n with
  | zero => exact absurd hr (by simp [mkCmd, skipCmdTokens])
  | succ n =>
    rw [mkCmd_word hla] at hr
    obtain ⟨⟨m, s₂⟩, hloop, hr⟩ := Option.bind_eq_some_iff.mp hr
    -- the loop: the other words, the two files, and the token that ends it
    obtain ⟨n₁, c₁, s₃, hat₁, hok₁, hso₁, hloop⟩ := cmdLoop_words c.args h.next (newCmd_ok hne s.word) hloop
    rw [foldl_add, hword] at hso₁
    have hinp : c₁.inp = inpipe := congrArg CmdView.inp hso₁
    obtain ⟨n₂, c₂, s₄, hat₂, hok₂, hso₂, hloop⟩ := cmdLoop_infile infile hat₁ hok₁ (fun hf => hinp.trans (hin hf))
      (congrArg CmdView.infile hso₁) hloop
    rw [hinp, hso₁] at hso₂
    obtain ⟨n₃, c₃, s₅, hat₃, hok₃, hso₃, hloop⟩ := cmdLoop_outfile outfile hat₂ hok₂ (congrArg CmdView.out hso₂)
      (congrArg CmdView.outfile hso₂) hloop
    rw [hso₂] at hso₃
    cases n₃ with
    | zero => exact absurd hloop (by simp [cmdLoop])
    | succ n₃ =>
      rw [cmdLoop_stop (show s₅.la.inCmd = false from hat₃.1 ▸ htc)] at hloop
      cases hloop
      obtain ⟨c', s', hr', hview, hat⟩ := endCmd_pieces hat₃ hok₃ (congrArg CmdView.exec hso₃) ht hr
      refine ⟨c', s', hr', ?_, hat⟩
      rw [hview, hso₃]
      simp [Command.view, Cmd.sofar, newCmd, c.word.cstr_text, Nat.add_comm]

/-! ### Pipelines, read back -/

/-- What follows a pipeline on the line is no connector. -/
def NoPipe (rest o : Text) (l : List Piece) : Prop := ∀ s, At rest o l s → s.la.pipeToken = false

theorem Ptype.ptype_token (t : Ptype) : t.token.ptype = t := by cases t <;> rfl

theorem view_setOut (c : Cmd) (t : Token) : { c with out := t }.view = { c.view with out := t } := rfl

/-- **The commands of a pipeline are read back**: the first call of `mkCmd` gives a
command, and the loop over the connectors the rest. -/
theorem pipeLoop_pieces {exec : Token} {outfile : Option (Redirect × Word)} (hexec : exec.cmdToken = true)
    (hl : NoPipe rest o l) : ∀ (more : List (Ptype × Command)) {n : ℕ} {inpipe : Token} {c : Command}
    {infile : Option Word} {s : St} {r : Made × St},
    At rest o (c.pieces ++ (inPieces infile ++ (morePieces outfile exec more ++ l))) s →
    (infile ≠ none → inpipe = .tnil) → inpipe ≠ .tin → mkCmd n inpipe s = some r →
    ∃ c' s', r = (.cmd c', s') ∧ ∀ (m : ℕ) (type : Ptype) (cmds : List Cmd) (x : Option Pipe × St),
      pipeLoop m type cmds c' s' = some x →
      ∃ q s'', x = (some ⟨lastType type more, cmds ++ q, false⟩, s'') ∧ At rest o l s'' ∧
        q.map Cmd.view = views exec outfile inpipe infile c more
  | [], n, inpipe, c, infile, s, r, h, hin, hne, hr => by
    rw [morePieces, List.append_assoc] at h
    have he := Token.endOfInput_of_cmdToken hexec
    have hc : exec.inCmd = false := by cases exec <;> simp_all [Token.cmdToken, Token.inCmd]
    have hx : exec.exec = exec := by cases exec <;> simp_all [Token.cmdToken, Token.exec]
    obtain ⟨c', s', hr', hview, hat⟩ := mkCmd_pieces h hin hne he hc hr
    rw [hexec, if_pos rfl] at hat
    refine ⟨c', s', hr', ?_⟩
    intro m type cmds x hx'
    cases m with
    | zero => exact absurd hx' (by simp [pipeLoop])
    | succ m =>
      rw [pipeLoop_stop (hl s' hat)] at hx'
      refine ⟨[c'], s', (Option.some.inj hx').symm, hat, ?_⟩
      rw [List.map_singleton, hview, hx]
      rfl
  | (t, d) :: more, n, inpipe, c, infile, s, r, h, hin, hne, hr => by
    have hp := t.pipeToken_token
    have hc : t.token.inCmd = false := by cases t <;> rfl
    have hcmd : t.token.cmdToken = false := by cases t <;> rfl
    have hpieces : At rest o (c.pieces ++ (inPieces infile ++ (outPieces none ++ .op t.token ::
        (d.pieces ++ (inPieces none ++ (morePieces outfile exec more ++ l)))))) s := by
      simpa [morePieces, outPieces, inPieces] using h
    obtain ⟨c', s', hr', hview, hat⟩ := mkCmd_pieces hpieces hin hne (Token.endOfInput_of_pipeToken hp) hc hr
    rw [hcmd, if_neg (by simp)] at hat
    have hla : s'.la = t.token := hat.1
    refine ⟨c', s', hr', ?_⟩
    intro m type cmds x hx
    cases m with
    | zero => exact absurd hx (by simp [pipeLoop])
    | succ m =>
      rw [pipeLoop_join (hla ▸ hp) (congrArg CmdView.out hview), hla, t.ptype_token] at hx
      obtain ⟨r₂, hr₂, hx⟩ := Option.bind_eq_some_iff.mp hx
      obtain ⟨d', s₂, rfl, hloop⟩ := pipeLoop_pieces hexec hl more hat.next (by simp) t.token_ne_tin hr₂
      obtain ⟨q, s₃, hx', hat₃, hviews⟩ := hloop m t _ x hx
      refine ⟨{ c' with out := t.token } :: q, s₃, by simpa [lastType] using hx', hat₃, ?_⟩
      rw [List.map_cons, view_setOut, hview, hviews, views]
      cases t <;> rfl

theorem Pipeline.cmdToken_term (p : Pipeline) : p.term.cmdToken = true := by
  unfold Pipeline.term
  split_ifs
  · rfl
  · rfl

/-- A line of pipelines begins with a word, or is over. -/
theorem noPipe_pieces (ps : List Pipeline) : NoPipe rest o (ps.flatMap Pipeline.pieces) := by
  intro s h
  cases ps with
  | nil =>
    rw [show s.la = .tnl from h.1]
    rfl
  | cons p ps =>
    rw [show s.la = .tword from h.1]
    rfl

/-- The first pipeline of a line, if those that follow it are read back. -/
theorem mkPipe_pieces {n : ℕ} {p : Pipeline} {ps : List Pipeline} {qs : List Pipe}
    (h : At rest o ((p :: ps).flatMap Pipeline.pieces) s) (hr : mkPipe n s = some (qs, s'))
    (hnext : ∀ {n : ℕ} {s s' : St} {qs : List Pipe}, At rest o (ps.flatMap Pipeline.pieces) s →
      nextPipes n s = some (qs, s') → qs.map Pipe.view = ps.map Pipeline.view ∧ At rest o [] s') :
    qs.map Pipe.view = (p :: ps).map Pipeline.view ∧ At rest o [] s' := by
  cases n with
  | zero => exact absurd hr (by simp [mkPipe])
  | succ n =>
    rw [mkPipe] at hr
    obtain ⟨r, hmk, hr⟩ := Option.bind_eq_some_iff.mp hr
    rw [List.flatMap_cons, Pipeline.pieces, List.append_assoc, List.append_assoc] at h
    obtain ⟨c, s₁, rfl, hloop⟩ := pipeLoop_pieces p.cmdToken_term (noPipe_pieces ps) p.more h (fun _ => rfl)
      (by decide) hmk
    obtain ⟨x, hx, hr⟩ := Option.bind_eq_some_iff.mp hr
    obtain ⟨q, s₂, rfl, hat, hviews⟩ := hloop n .pout [] x hx
    obtain ⟨⟨qs', s₃⟩, hnx, heq⟩ := Option.map_eq_some_iff.mp hr
    cases heq
    obtain ⟨hqs, hend⟩ := hnext hat hnx
    refine ⟨?_, hend⟩
    rw [List.map_cons, List.map_cons, hqs, Pipe.view, List.nil_append, hviews]
    rfl

/-- **The pipelines of a line are read back.** -/
theorem nextPipes_pieces : ∀ (ps : List Pipeline) {n : ℕ} {s s' : St} {qs : List Pipe},
    At rest o (ps.flatMap Pipeline.pieces) s → nextPipes n s = some (qs, s') →
    qs.map Pipe.view = ps.map Pipeline.view ∧ At rest o [] s'
  | _, 0, _, _, _, _, hr => absurd hr (by simp [nextPipes])
  | [], n + 1, s, s', qs, h, hr => by
    have hla : s.la = .tnl := h.1
    rw [nextPipes_end (by rw [hla]; rfl)] at hr
    cases hr
    exact ⟨rfl, h⟩
  | p :: ps, n + 1, s, s', qs, h, hr => by
    have hla : s.la = .tword := h.1
    rw [nextPipes, hla, if_neg (by decide)] at hr
    obtain ⟨⟨qs₁, s₁⟩, hmk, hr⟩ := Option.bind_eq_some_iff.mp hr
    obtain ⟨hqs, hend⟩ := mkPipe_pieces h hmk (nextPipes_pieces ps)
    have hne : qs₁ ≠ [] := by
      intro hnil
      rw [hnil] at hqs
      exact absurd hqs (by simp)
    have hla₁ : s₁.la.endOfInput = true := by
      rw [hend.1]
      rfl
    rw [if_neg hne, if_pos hla₁] at hr
    cases hr
    exact ⟨hqs, hend⟩

end Reading

theorem Command.ok_pieces (c : Command) : ∀ x ∈ c.pieces, x.Ok := by
  intro x hx
  rcases List.mem_cons.mp hx with rfl | hx
  · exact trivial
  · obtain ⟨w, -, rfl⟩ := List.mem_map.mp hx
    exact trivial

theorem ok_inPieces (f : Option Word) : ∀ x ∈ inPieces f, x.Ok := by
  cases f with
  | none => simp [inPieces]
  | some f => simp [inPieces, Piece.Ok, Token.isOp, Token.text]

theorem ok_outPieces (f : Option (Redirect × Word)) : ∀ x ∈ outPieces f, x.Ok := by
  cases f with
  | none => simp [outPieces]
  | some f =>
    have hop : f.1.token.isOp = true := by cases f.1 <;> rfl
    simp [outPieces, Piece.Ok, hop]

theorem ok_morePieces (f : Option (Redirect × Word)) {exec : Token} (he : exec.isOp = true) :
    ∀ (more : List (Ptype × Command)), ∀ x ∈ morePieces f exec more, x.Ok
  | [] => by
    intro x hx
    rcases List.mem_append.mp hx with hx | hx
    · exact ok_outPieces f x hx
    · obtain rfl := List.mem_singleton.mp hx
      exact he
  | (t, c) :: more => by
    intro x hx
    rcases List.mem_cons.mp hx with rfl | hx
    · show t.token.isOp = true
      cases t <;> rfl
    · rcases List.mem_append.mp hx with hx | hx
      · exact c.ok_pieces x hx
      · exact ok_morePieces f he more x hx

/-- All that is written is words and operators. -/
theorem Pipeline.ok_pieces (p : Pipeline) : ∀ x ∈ p.pieces, x.Ok := by
  have hterm : p.term.isOp = true := by
    unfold Pipeline.term
    split_ifs
    · rfl
    · rfl
  intro x hx
  rcases List.mem_append.mp hx with hx | hx
  · exact p.first.ok_pieces x hx
  · rcases List.mem_append.mp hx with hx | hx
    · exact ok_inPieces p.infile x hx
    · exact ok_morePieces p.outfile hterm p.more x hx

/-- **A command line is read back as it was written**, whatever is in its words:
the pipes with their commands, arguments, files and connectors, with nothing
printed, and the rest of the input is left. -/
theorem parse_render (ps : List Pipeline) (la : Token) (word rest printed : Text) :
    ∃ qs s', parse ⟨la, word, render ps ++ rest, printed⟩ = some (qs, s') ∧ qs.map Pipe.view = ps.map Pipeline.view ∧
      s'.la = .tnl ∧ s'.input = rest ∧ s'.printed = printed := by
  obtain ⟨qs, s', hr, -⟩ := parse_ok ⟨la, word, render ps ++ rest, printed⟩
  refine ⟨qs, s', hr, ?_⟩
  have hok : ∀ x ∈ ps.flatMap Pipeline.pieces, x.Ok := by
    intro x hx
    obtain ⟨p, -, hp⟩ := List.mem_flatMap.mp hx
    exact p.ok_pieces x hp
  have hat : At rest printed (ps.flatMap Pipeline.pieces) (next ⟨la, word, render ps ++ rest, printed⟩) :=
    (ahead_layout rest hok).at rfl
  cases ps with
  | nil =>
    -- an empty line
    have hla : (next ⟨la, word, render [] ++ rest, printed⟩).la = .tnl := hat.1
    rw [parse, mkPipe, mkCmd, skipCmdTokens, hla] at hr
    cases hr
    exact ⟨rfl, hat⟩
  | cons p ps => exact mkPipe_pieces hat hr (nextPipes_pieces ps)

end Shell
end Csc501

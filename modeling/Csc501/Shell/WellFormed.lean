/-
# What the parser returns

A call of `parse` comes to an end and never assigns outside of an argument array,
whatever it reads. Each token takes the parser forward (`St.size`), and the fuel
of `parse` is enough for all of them.

The commands are built up while their words come in: `Cmd.Ok` is what holds in
between, `Cmd.WellFormed` at the end. A pipe in addition has its connectors on
both sides of each joint (`Pipe.WellFormed`).

Key definitions: `St.size`, `Cmd.Ok`, `Cmd.WellFormed`, `Joined`, `Pipe.WellFormed`.
Key theorems: `cmdLoop_ok`, `mkCmd_ok`, `pipeLoop_ok`, `mkPipe_ok`, `parse_ok`, `parsed_pipes`.
-/
import Mathlib.Data.List.Chain
import Csc501.Shell.Parse

namespace Csc501
namespace Shell

open Lib

/-! ### Progress -/

/-- What is still to be read, the token ahead included. -/
def St.size (s : St) : ℕ := s.input.length + if s.la.endOfInput then 0 else 1

@[simp] theorem size_print (s : St) (text : String) : (s.print text).size = s.size := rfl

@[simp] theorem la_print (s : St) (text : String) : (s.print text).la = s.la := rfl

@[simp] theorem size_next_print (s : St) (text : String) : (next (s.print text)).size = (next s).size := rfl

/-- The next token, with what follows it, is no longer than the text it is read from. -/
theorem size_next_input (s : St) : (next s).size ≤ s.input.length := by
  by_cases hs : s.input = []
  · simp [St.size, next, hs, nextToken, Lexeme.of, Token.endOfInput]
  · have hlt : (next s).input.length < s.input.length := length_nextToken hs
    unfold St.size
    split_ifs
    · omega
    · omega

theorem size_next_le (s : St) : (next s).size ≤ s.size := (size_next_input s).trans (Nat.le_add_right _ _)

theorem size_next_lt {s : St} (h : s.la.endOfInput = false) : (next s).size < s.size := by
  have hle := size_next_input s
  simp only [St.size, h, Bool.false_eq_true, if_false] at hle ⊢
  omega

theorem skipToEnd_ok : ∀ {n : ℕ} {s : St}, s.size < n →
    ∃ s', skipToEnd n s = some s' ∧ s'.la.endOfInput = true ∧ s'.size ≤ s.size
  | 0, _, h => absurd h (Nat.not_lt_zero _)
  | n + 1, s, h => by
    unfold skipToEnd
    split_ifs with he
    · exact ⟨s, rfl, he, le_rfl⟩
    · have hlt := size_next_lt (Bool.eq_false_iff.mpr he)
      obtain ⟨s', hs', hend, hle⟩ := skipToEnd_ok (show (next s).size < n by omega)
      exact ⟨s', hs', hend, hle.trans hlt.le⟩

theorem skipLine_ok {n : ℕ} {s : St} (h : (next s).size < n) :
    ∃ s', skipLine n s = some s' ∧ s'.la.endOfInput = true ∧ s'.size ≤ s.size := by
  obtain ⟨s', hs', hend, hle⟩ := skipToEnd_ok h
  exact ⟨s', hs', hend, hle.trans (size_next_le s)⟩

theorem Token.endOfInput_of_cmdToken {t : Token} (h : t.cmdToken = true) : t.endOfInput = false := by
  cases t <;> simp_all [Token.cmdToken, Token.endOfInput]

theorem Token.endOfInput_of_pipeToken {t : Token} (h : t.pipeToken = true) : t.endOfInput = false := by
  cases t <;> simp_all [Token.pipeToken, Token.endOfInput]

theorem Token.endOfInput_of_toFile {t : Token} (h : t.toFile = true) : t.endOfInput = false := by
  cases t <;> simp_all [Token.toFile, Token.endOfInput]

theorem skipCmdTokens_ok : ∀ {n : ℕ} {s : St}, s.size < n →
    ∃ s', skipCmdTokens n s = some s' ∧ s'.la.cmdToken = false ∧ s'.size ≤ s.size
  | 0, _, h => absurd h (Nat.not_lt_zero _)
  | n + 1, s, h => by
    unfold skipCmdTokens
    split_ifs with ht
    · have hlt := size_next_lt (Token.endOfInput_of_cmdToken ht)
      obtain ⟨s', hs', hend, hle⟩ := skipCmdTokens_ok (show (next s).size < n by omega)
      exact ⟨s', hs', hend, hle.trans hlt.le⟩
    · exact ⟨s, rfl, Bool.eq_false_iff.mpr ht, le_rfl⟩

/-! ### What is printed -/

theorem next_grows (s : St) : s.printed.length ≤ (next s).printed.length := by simp [next]

theorem print_grows (s : St) {text : String} (h : text.toList ≠ []) :
    s.printed.length < (s.print text).printed.length := by
  have hpos : 0 < text.toList.length := List.length_pos_iff.mpr h
  simp only [St.print, List.length_append]
  omega

theorem skipToEnd_grows {s' : St} : ∀ {n : ℕ} {s : St}, skipToEnd n s = some s' → s.printed.length ≤ s'.printed.length
  | 0, _, h => absurd h (by simp [skipToEnd])
  | n + 1, s, h => by
    rw [skipToEnd] at h
    split at h
    · rw [Option.some.inj h]
    · exact (next_grows s).trans (skipToEnd_grows h)

theorem skipLine_grows {n : ℕ} {s s' : St} (h : skipLine n s = some s') : s.printed.length ≤ s'.printed.length :=
  (next_grows s).trans (skipToEnd_grows h)

theorem skipCmdTokens_grows {s' : St} : ∀ {n : ℕ} {s : St}, skipCmdTokens n s = some s' →
    s.printed.length ≤ s'.printed.length
  | 0, _, h => absurd h (by simp [skipCmdTokens])
  | n + 1, s, h => by
    rw [skipCmdTokens] at h
    split at h
    · exact (next_grows s).trans (skipCmdTokens_grows h)
    · rw [Option.some.inj h]

/-! ### Commands -/

/-- A command that is being read, behind the connector `inpipe`. -/
structure Cmd.Ok (inpipe : Token) (c : Cmd) : Prop where
  length : c.args.length = c.maxargs
  pos : 1 ≤ c.nargs
  room : c.nargs < c.maxargs
  words : ∀ i < c.nargs, ∃ w, c.args[i]? = some (.word w)
  infile : c.infile.isSome ↔ c.inp = .tin
  outfile : c.outfile.isSome ↔ c.out.toFile = true
  inp : c.inp = inpipe ∨ inpipe = .tnil ∧ c.inp = .tin
  out : c.out = .tnil ∨ c.out.toFile = true

/-- A command that `parse` returns. -/
structure Cmd.WellFormed (c : Cmd) : Prop where
  length : c.args.length = c.maxargs
  pos : 1 ≤ c.nargs
  room : c.nargs < c.maxargs
  words : ∀ i < c.nargs, ∃ w, c.args[i]? = some (.word w)
  null : c.args[c.nargs]? = some .null
  infile : c.infile.isSome ↔ c.inp = .tin
  outfile : c.outfile.isSome ↔ c.out.toFile = true
  out : c.out = .tnil ∨ c.out.toFile = true ∨ c.out.pipeToken = true

/-- A command that `mkCmd` returns. -/
structure Cmd.Made (inpipe : Token) (c : Cmd) : Prop where
  wellFormed : c.WellFormed
  inp : c.inp = inpipe ∨ inpipe = .tnil ∧ c.inp = .tin
  out : c.out.pipeToken = false

theorem Token.pipeToken_of_toFile {t : Token} (h : t.toFile = true) : t.pipeToken = false := by
  cases t <;> simp_all [Token.toFile, Token.pipeToken]

/-- No connector has been seen yet. -/
theorem Cmd.Ok.no_pipe {inpipe : Token} {c : Cmd} (h : c.Ok inpipe) : c.out.pipeToken = false := by
  rcases h.out with ho | ho
  · rw [ho]
    rfl
  · exact Token.pipeToken_of_toFile ho

theorem newCmd_ok {inpipe : Token} (hin : inpipe ≠ .tin) (w : Text) : { newCmd w with inp := inpipe }.Ok inpipe where
  length := rfl
  pos := le_rfl
  room := show 1 < 4 by decide
  words := by
    intro i hi
    obtain rfl : i = 0 := Nat.lt_one_iff.mp hi
    exact ⟨cstr w, rfl⟩
  infile := by simp [newCmd, hin]
  outfile := by simp [newCmd, Token.toFile]
  inp := .inl rfl
  out := .inl rfl

theorem Cmd.Ok.setIn {inpipe : Token} {c : Cmd} (h : c.Ok inpipe) (hin : c.inp = .tnil) (w : Text) :
    { c with inp := .tin, infile := some w }.Ok inpipe where
  length := h.length
  pos := h.pos
  room := h.room
  words := h.words
  infile := by simp
  outfile := h.outfile
  inp := by
    rcases h.inp with hp | ⟨-, hp⟩
    · exact .inr ⟨hp.symm.trans hin, rfl⟩
    · exact absurd (hin.symm.trans hp) (by decide)
  out := h.out

theorem Cmd.Ok.setOut {inpipe t : Token} {c : Cmd} (h : c.Ok inpipe) (ht : t.toFile = true) (w : Text) :
    { c with out := t, outfile := some w }.Ok inpipe where
  length := h.length
  pos := h.pos
  room := h.room
  words := h.words
  infile := h.infile
  outfile := by simp [ht]
  inp := h.inp
  out := .inr ht

/-- The array is doubled in time: after it there is room for two. -/
theorem Cmd.Ok.grow {inpipe : Token} {c : Cmd} (h : c.Ok inpipe) : c.grow.Ok inpipe ∧ c.nargs + 2 ≤ c.grow.maxargs := by
  have hpos := h.pos
  have hroom := h.room
  unfold Cmd.grow
  split_ifs with hg
  · refine ⟨⟨?_, h.pos, ?_, ?_, h.infile, h.outfile, h.inp, h.out⟩, ?_⟩
    · simp [h.length]
    · exact hroom.trans_le (Nat.le_add_right _ _)
    · intro i hi
      obtain ⟨w, hw⟩ := h.words i hi
      exact ⟨w, (List.getElem?_append_left (List.getElem?_eq_some_iff.mp hw).1).trans hw⟩
    · show c.nargs + 2 ≤ c.maxargs + c.maxargs
      omega
  · exact ⟨h, by omega⟩

@[simp] theorem nargs_grow (c : Cmd) : c.grow.nargs = c.nargs := by
  unfold Cmd.grow
  split_ifs
  · rfl
  · rfl

/-- An argument is stored within the array. -/
theorem Cmd.Ok.addArg {inpipe : Token} {c : Cmd} (h : c.Ok inpipe) (w : Text) :
    ∃ c', c.addArg w = some c' ∧ c'.Ok inpipe := by
  obtain ⟨hg, hroom⟩ := h.grow
  have hi : c.nargs < c.grow.maxargs := by omega
  refine ⟨{ c.grow with args := c.grow.args.set c.nargs (.word (cstr w)), nargs := c.grow.nargs + 1 }, ?_, ?_⟩
  · simp [Cmd.addArg, Cmd.setArg, hi]
  · refine ⟨?_, ?_, ?_, ?_, hg.infile, hg.outfile, hg.inp, hg.out⟩
    · simp [hg.length]
    · exact Nat.le_add_left 1 _
    · show c.grow.nargs + 1 < c.grow.maxargs
      rw [nargs_grow]
      omega
    · intro i hlt
      have hlt' : i < c.nargs + 1 := by simpa using hlt
      rcases Nat.lt_succ_iff_lt_or_eq.mp hlt' with hlt'' | rfl
      · obtain ⟨x, hx⟩ := hg.words i (by simpa using hlt'')
        exact ⟨x, by simpa [List.getElem?_set_ne (Nat.ne_of_gt hlt'')] using hx⟩
      · exact ⟨cstr w, List.getElem?_set_self (by rw [hg.length]; exact hi)⟩

/-- The last store of `mkCmd`. -/
theorem Cmd.Ok.finish {inpipe : Token} {c : Cmd} (h : c.Ok inpipe) (exec : Token) :
    ∃ c', { c with exec := exec }.setArg c.nargs .null = some c' ∧ c'.Made inpipe := by
  refine ⟨{ c with exec := exec, args := c.args.set c.nargs .null }, ?_, ⟨?_, ?_, ?_, ?_, ?_, h.infile, h.outfile, ?_⟩,
    h.inp, h.no_pipe⟩
  · simp [Cmd.setArg, h.room]
  · simp [h.length]
  · exact h.pos
  · exact h.room
  · intro i hi
    obtain ⟨w, hw⟩ := h.words i hi
    exact ⟨w, by simpa [List.getElem?_set_ne (Nat.ne_of_gt hi)] using hw⟩
  · exact List.getElem?_set_self (by rw [h.length]; exact h.room)
  · exact h.out.imp_right .inl

/-- **The loop over a command** comes to an end, and the command is in order when it does. -/
theorem cmdLoop_ok : ∀ {n : ℕ} {inpipe : Token} {c : Cmd} {s : St}, s.size < n → c.Ok inpipe →
    ∃ r s', cmdLoop n c s = some (r, s') ∧ s'.size ≤ s.size ∧ ∀ c', r = some c' → c'.Ok inpipe
  | 0, _, _, _, h, _ => absurd h (Nat.not_lt_zero _)
  | n + 1, inpipe, c, s, h, hc => by
    -- the three errors: what follows up to the end of the line is skipped
    have hskip : ∀ {text : String} {u : St}, (next u).size < n → u.size ≤ s.size →
        ∃ (r : Option Cmd) (s' : St), (skipLine n (u.print text)).map (fun s => (none, s)) = some (r, s') ∧
          s'.size ≤ s.size ∧ ∀ c', r = some c' → c'.Ok inpipe := by
      intro text u hu hle
      obtain ⟨s', hs', -, hle'⟩ := skipLine_ok (s := u.print text) hu
      exact ⟨none, s', by rw [hs']; rfl, hle'.trans hle, fun c' hr => absurd hr (by simp)⟩
    rcases s.la.inCmd_cases with hla | hla | hla | hla
    · have hlt : (next s).size < s.size := size_next_lt (by rw [hla]; rfl)
      have hlt' := size_next_le (next s)
      rw [cmdLoop_in hla]
      split_ifs with h1 h2
      · exact hskip (by omega) le_rfl
      · exact hskip (by omega) hlt.le
      · obtain ⟨r, s', hr, hle, hok⟩ := cmdLoop_ok (show (next (next s)).size < n by omega)
          (hc.setIn (not_not.mp h1) (cstr (next s).word))
        exact ⟨r, s', hr, by omega, hok⟩
    · have hlt := size_next_lt (Token.endOfInput_of_toFile hla)
      have hlt' := size_next_le (next s)
      rw [cmdLoop_out hla]
      split_ifs with h1 h2
      · exact hskip (by omega) le_rfl
      · exact hskip (by omega) hlt.le
      · obtain ⟨r, s', hr, hle, hok⟩ := cmdLoop_ok (show (next (next s)).size < n by omega)
          (hc.setOut hla (cstr (next s).word))
        exact ⟨r, s', hr, by omega, hok⟩
    · have hlt : (next s).size < s.size := size_next_lt (by rw [hla]; rfl)
      obtain ⟨c₁, hc₁, hok₁⟩ := hc.addArg s.word
      obtain ⟨r, s', hr, hle, hok⟩ := cmdLoop_ok (show (next s).size < n by omega) hok₁
      rw [cmdLoop_word hla, hc₁]
      exact ⟨r, s', hr, by omega, hok⟩
    · rw [cmdLoop_stop hla]
      refine ⟨some c, s, rfl, le_rfl, ?_⟩
      intro c' hr
      cases hr
      exact hc

theorem endCmd_ok {inpipe : Token} {c : Cmd} (h : c.Ok inpipe) (s : St) :
    ∃ r s', endCmd c s = some (r, s') ∧ s'.size ≤ s.size ∧ (r = .null ∨ ∃ c', r = .cmd c' ∧ c'.Made inpipe) := by
  unfold endCmd
  split_ifs
  · exact ⟨.null, s, rfl, le_rfl, .inl rfl⟩
  · obtain ⟨c', hc', hm⟩ := h.finish c.exec
    exact ⟨.cmd c', next s, by rw [hc']; rfl, size_next_le s, .inr ⟨c', rfl, hm⟩⟩
  · obtain ⟨c', hc', hm⟩ := h.finish .tamp
    exact ⟨.cmd c', next s, by rw [hc']; rfl, size_next_le s, .inr ⟨c', rfl, hm⟩⟩
  · obtain ⟨c', hc', hm⟩ := h.finish c.exec
    exact ⟨.cmd c', s, by rw [hc']; rfl, le_rfl, .inr ⟨c', rfl, hm⟩⟩

/-- What a call of `mkCmd` leaves, by what it returns: a command takes the parser
forward, and `End` means that the input has ended. -/
def Made.Ok (inpipe : Token) (s s' : St) : Made → Prop
  | .null | .empty => True
  | .ended => s'.la = .tend
  | .cmd c => s'.size < s.size ∧ c.Made inpipe

/-- **A call of `mkCmd`.** -/
theorem mkCmd_ok {n : ℕ} {inpipe : Token} {s : St} (h : s.size < n) (hin : inpipe ≠ .tin) :
    ∃ r s', mkCmd n inpipe s = some (r, s') ∧ s'.size ≤ s.size ∧ r.Ok inpipe s s' := by
  obtain ⟨s₁, hs₁, -, hle₁⟩ := skipCmdTokens_ok h
  simp only [mkCmd, hs₁, Option.bind_some]
  split_ifs with h1 h2 h3
  · exact ⟨.ended, s₁, rfl, hle₁, h2⟩
  · exact ⟨.empty, s₁, rfl, hle₁, trivial⟩
  · exact ⟨.null, s₁.print errMsg, rfl, hle₁, trivial⟩
  · have hlt : (next s₁).size < s₁.size := size_next_lt (by rw [not_not.mp h1]; rfl)
    obtain ⟨r, s₂, hr, hle₂, hok⟩ := cmdLoop_ok (show (next s₁).size < n by omega) (newCmd_ok hin s₁.word)
    rw [hr, Option.bind_some]
    cases r with
    | none => exact ⟨.null, s₂, rfl, by omega, trivial⟩
    | some c =>
      obtain ⟨r, s₃, hr₃, hle₃, hm⟩ := endCmd_ok (hok c rfl) s₂
      refine ⟨r, s₃, hr₃, by omega, ?_⟩
      rcases hm with rfl | ⟨c', rfl, hm⟩
      · exact trivial
      · exact ⟨by omega, hm⟩

/-! ### Pipes -/

/-- Two commands with a connector between them. -/
def Joined (c d : Cmd) : Prop := c.out = d.inp ∧ c.out.pipeToken = true

/-- A pipe that `parse` returns. -/
structure Pipe.WellFormed (p : Pipe) : Prop where
  cmds : ∀ c ∈ p.cmds, c.WellFormed
  head : ∀ c, p.cmds.head? = some c → c.inp.pipeToken = false
  joined : p.cmds.IsChain Joined
  last : p.atEnd = false → ∃ c, p.cmds.getLast? = some c ∧ c.out.pipeToken = false

theorem Ptype.pipeToken_token (t : Ptype) : t.token.pipeToken = true := by cases t <;> rfl

theorem Ptype.token_ne_tin (t : Ptype) : t.token ≠ .tin := by cases t <;> decide

/-- The `out` of a command is set when its connector is seen. -/
theorem Cmd.WellFormed.setPipe {c : Cmd} (h : c.WellFormed) (hout : c.out = .tnil) (t : Ptype) :
    { c with out := t.token }.WellFormed where
  length := h.length
  pos := h.pos
  room := h.room
  words := h.words
  null := h.null
  infile := h.infile
  outfile := by
    have hf : c.outfile.isSome = true ↔ c.out.toFile = true := h.outfile
    rw [hout] at hf
    cases t with
    | pout => exact hf
    | poutErr => exact hf
  out := .inr (.inr t.pipeToken_token)

/-- The commands of a pipe up to the one at hand, which has no connector behind it yet. -/
structure Chain (cmds : List Cmd) (c : Cmd) : Prop where
  before : ∀ d ∈ cmds, d.WellFormed
  cmd : c.WellFormed
  head : ∀ d, (cmds ++ [c]).head? = some d → d.inp.pipeToken = false
  joined : (cmds ++ [c]).IsChain Joined
  out : c.out.pipeToken = false

theorem Chain.first {c : Cmd} (h : c.Made .tnil) : Chain [] c where
  before := by simp
  cmd := h.wellFormed
  head := by
    intro d hd
    obtain rfl : c = d := by simpa using hd
    rcases h.inp with hi | ⟨-, hi⟩
    · rw [hi]
      rfl
    · rw [hi]
      rfl
  joined := List.isChain_singleton c
  out := h.out

/-- The joints before a command do not see its `out`. -/
theorem isChain_setOut {cmds : List Cmd} {c : Cmd} (t : Token) (h : (cmds ++ [c]).IsChain Joined) :
    (cmds ++ [{ c with out := t }]).IsChain Joined := by
  rw [List.isChain_append] at h ⊢
  refine ⟨h.1, List.isChain_singleton _, ?_⟩
  intro x hx y hy
  obtain rfl : { c with out := t } = y := by simpa using hy
  exact h.2.2 x hx c rfl

theorem Chain.pipe {cmds : List Cmd} {c : Cmd} (h : Chain cmds c) (type : Ptype) : Pipe.WellFormed ⟨type, cmds ++ [c], false⟩ where
  cmds := by
    intro d hd
    rcases List.mem_append.mp hd with hd | hd
    · exact h.before d hd
    · obtain rfl := List.mem_singleton.mp hd
      exact h.cmd
  head := h.head
  joined := h.joined
  last := fun _ => ⟨c, by simp, h.out⟩

section Connect

variable {cmds : List Cmd} {c : Cmd}

theorem Chain.connect (h : Chain cmds c) (hout : c.out = .tnil) (t : Ptype) :
    (∀ d ∈ cmds ++ [{ c with out := t.token }], d.WellFormed) ∧
      (∀ d, (cmds ++ [{ c with out := t.token }]).head? = some d → d.inp.pipeToken = false) ∧
      (cmds ++ [{ c with out := t.token }]).IsChain Joined := by
  refine ⟨?_, ?_, isChain_setOut t.token h.joined⟩
  · intro d hd
    rcases List.mem_append.mp hd with hd | hd
    · exact h.before d hd
    · obtain rfl := List.mem_singleton.mp hd
      exact h.cmd.setPipe hout t
  · intro d hd
    have hhead := h.head
    cases cmds with
    | nil =>
      obtain rfl : { c with out := t.token } = d := by simpa using hd
      exact hhead c rfl
    | cons e l => exact hhead d hd

/-- The next command is read. -/
theorem Chain.next (h : Chain cmds c) (hout : c.out = .tnil) {t : Ptype} {d : Cmd} (hd : d.Made t.token) :
    Chain (cmds ++ [{ c with out := t.token }]) d := by
  obtain ⟨hc, hh, hj⟩ := h.connect hout t
  have hinp : d.inp = t.token := by
    rcases hd.inp with hi | ⟨hi, -⟩
    · exact hi
    · exact absurd hi (by cases t <;> decide)
  refine ⟨hc, hd.wellFormed, ?_, ?_, hd.out⟩
  · intro x hx
    rw [List.head?_append_of_ne_nil _ (by simp)] at hx
    exact hh x hx
  · rw [List.isChain_append]
    refine ⟨hj, List.isChain_singleton d, ?_⟩
    intro x hx y hy
    obtain rfl : { c with out := t.token } = x := by simpa using hx
    obtain rfl : d = y := by simpa using hy
    exact ⟨hinp.symm, t.pipeToken_token⟩

/-- The input ends behind the connector. -/
theorem Chain.ended (h : Chain cmds c) (hout : c.out = .tnil) (t : Ptype) :
    Pipe.WellFormed ⟨t, cmds ++ [{ c with out := t.token }], true⟩ := by
  obtain ⟨hc, hh, hj⟩ := h.connect hout t
  exact ⟨hc, hh, hj, fun he => absurd he (by simp)⟩

end Connect

/-- **The loop over the connectors.** -/
theorem pipeLoop_ok : ∀ {n : ℕ} (type : Ptype) {cmds : List Cmd} {c : Cmd} {s : St}, s.size < n → Chain cmds c →
    ∃ r s', pipeLoop n type cmds c s = some (r, s') ∧ s'.size ≤ s.size ∧ ∀ p, r = some p → p.WellFormed
  | 0, _, _, _, _, h, _ => absurd h (Nat.not_lt_zero _)
  | n + 1, type, cmds, c, s, h, hc => by
    have hnull : ∀ {x : Option St} {s' : St}, x = some s' → s'.size ≤ s.size →
        ∃ (r : Option Pipe) (s' : St), x.map (fun s => (none, s)) = some (r, s') ∧ s'.size ≤ s.size ∧
          ∀ p, r = some p → p.WellFormed := by
      intro x s' hx hle
      exact ⟨none, s', by rw [hx]; rfl, hle, fun p hp => absurd hp (by simp)⟩
    cases hp : s.la.pipeToken with
    | false =>
      rw [pipeLoop_stop hp]
      refine ⟨_, s, rfl, le_rfl, ?_⟩
      intro p hp'
      cases hp'
      exact hc.pipe type
    | true =>
      have hlt := size_next_lt (Token.endOfInput_of_pipeToken hp)
      by_cases hout : c.out = .tnil
      · obtain ⟨r, s₁, hr, hle₁, hok⟩ := mkCmd_ok (show (next s).size < n by omega) s.la.ptype.token_ne_tin
        rw [pipeLoop_join hp hout, hr, Option.bind_some]
        cases r with
        | null =>
          obtain ⟨s', hs', -, hle⟩ := skipToEnd_ok (show s₁.size < n by omega)
          exact hnull hs' (by omega)
        | empty =>
          obtain ⟨s', hs', -, hle⟩ := skipToEnd_ok (show (s₁.print "Invalid null command.\n").size < n from
            (size_print s₁ _).trans_lt (by omega))
          exact hnull hs' (hle.trans (by rw [size_print]; omega))
        | ended =>
          refine ⟨_, s₁, rfl, by omega, ?_⟩
          intro p hp'
          cases hp'
          exact hc.ended hout s.la.ptype
        | cmd d =>
          obtain ⟨hlt₁, hd⟩ := hok
          obtain ⟨r, s', hr', hle, hwf⟩ := pipeLoop_ok _ (show s₁.size < n by omega) (hc.next hout hd)
          exact ⟨r, s', hr', by omega, hwf⟩
      · rw [pipeLoop_ambiguous hp hout]
        obtain ⟨s', hs', -, hle⟩ := skipLine_ok (show (next (s.print "Ambiguous output redirect.\n")).size < n by
          rw [size_next_print]
          omega)
        exact hnull hs' hle

/-- Behind the end of the line there are no further pipes. -/
theorem nextPipes_end {n : ℕ} {s : St} (h : s.la.endOfInput = true) : nextPipes (n + 1) s = some ([], s) := by
  rw [nextPipes, if_pos h]

mutual

/-- **A call of `mkPipe`** comes to an end, having moved on if it returns a pipe. -/
theorem mkPipe_ok : ∀ {n : ℕ} {s : St}, 2 * s.size + 2 ≤ n →
    ∃ ps s', mkPipe n s = some (ps, s') ∧ s'.size ≤ s.size ∧
      (ps ≠ [] → s'.size < s.size ∨ s'.la.endOfInput = true) ∧ ∀ p ∈ ps, p.WellFormed
  | 0, _, h => absurd h (by omega)
  | n + 1, s, h => by
    obtain ⟨r, s₁, hr, hle₁, hok⟩ := mkCmd_ok (show s.size < n by omega) (show Token.tnil ≠ .tin by decide)
    rw [mkPipe, hr, Option.bind_some]
    cases r with
    | null => exact ⟨[], s₁, rfl, hle₁, by simp, by simp⟩
    | empty => exact ⟨[], s₁, rfl, hle₁, by simp, by simp⟩
    | ended =>
      have hend : s₁.la.endOfInput = true := by
        rw [show s₁.la = .tend from hok]
        rfl
      obtain ⟨n, rfl⟩ : ∃ k, n = k + 1 := ⟨n - 1, by omega⟩
      dsimp only
      rw [nextPipes_end hend]
      refine ⟨_, s₁, rfl, hle₁, fun _ => .inr hend, ?_⟩
      intro p hp
      obtain rfl := List.mem_singleton.mp hp
      exact ⟨by simp, by simp, List.isChain_nil, fun he => absurd he (by simp)⟩
    | cmd c =>
      obtain ⟨hlt, hc⟩ := hok
      obtain ⟨r, s₂, hr₂, hle₂, hwf⟩ := pipeLoop_ok .pout (show s₁.size < n by omega) (Chain.first hc)
      dsimp only
      rw [hr₂, Option.bind_some]
      cases r with
      | none => exact ⟨[], s₂, rfl, by omega, by simp, by simp⟩
      | some p =>
        obtain ⟨ps, s₃, hr₃, hle₃, hwf₃⟩ := nextPipes_ok (show 2 * s₂.size + 3 ≤ n by omega)
        dsimp only
        rw [hr₃]
        refine ⟨p :: ps, s₃, rfl, by omega, fun _ => .inl (by omega), ?_⟩
        exact List.forall_mem_cons.mpr ⟨hwf p rfl, hwf₃⟩

theorem nextPipes_ok : ∀ {n : ℕ} {s : St}, 2 * s.size + 3 ≤ n →
    ∃ ps s', nextPipes n s = some (ps, s') ∧ s'.size ≤ s.size ∧ ∀ p ∈ ps, p.WellFormed
  | 0, _, h => absurd h (by omega)
  | n + 1, s, h => by
    rw [nextPipes]
    split_ifs with hend
    · exact ⟨[], s, rfl, le_rfl, by simp⟩
    · obtain ⟨ps, s₁, hr, hle, hmove, hwf⟩ := mkPipe_ok (show 2 * s.size + 2 ≤ n by omega)
      rw [hr, Option.bind_some]
      split_ifs with hnil hend₁
      · exact ⟨ps, s₁, rfl, hle, hwf⟩
      · exact ⟨ps, s₁, rfl, hle, hwf⟩
      · have hlt : s₁.size < s.size := (hmove hnil).resolve_right hend₁
        obtain ⟨ps', s', hr', hle', hwf'⟩ := nextPipes_ok (show 2 * s₁.size + 3 ≤ n by omega)
        exact ⟨ps', s', hr', by omega, hwf'⟩

end

/-- `parse` returns, and what it returns is in order. -/
theorem parse_ok (s : St) : ∃ ps s', parse s = some (ps, s') ∧ ∀ p ∈ ps, p.WellFormed := by
  have hle := size_next_input s
  obtain ⟨ps, s', hr, -, -, hwf⟩ := mkPipe_ok (show 2 * (next s).size + 2 ≤ 2 * s.input.length + 6 by omega)
  exact ⟨ps, s', hr, hwf⟩

/-- Some call of `parse` returns the pipe. -/
def Parsed (p : Pipe) : Prop := ∃ s ps s', parse s = some (ps, s') ∧ p ∈ ps

theorem Parsed.wellFormed {p : Pipe} (h : Parsed p) : p.WellFormed := by
  obtain ⟨s, ps, s', hr, hp⟩ := h
  obtain ⟨ps₁, s₁, hr₁, hwf⟩ := parse_ok s
  cases hr.symm.trans hr₁
  exact hwf p hp

theorem Token.pipeToken_eq_false {t : Token} : t.pipeToken = false ↔ t ≠ .tpipe ∧ t ≠ .tpipeErr := by
  cases t <;> decide

theorem Token.pipeToken_eq_true {t : Token} : t.pipeToken = true ↔ t = .tpipe ∨ t = .tpipeErr := by
  cases t <;> decide

theorem Token.toFile_eq_true {t : Token} :
    t.toFile = true ↔ t = .tout ∨ t = .tapp ∨ t = .toutErr ∨ t = .tappErr := by
  cases t <;> decide

/-- **The pipes that `parse` returns**, from any input: no argument is stored
outside of its array (the result is not `none`), each command has its arguments
with `NULL` behind them, and its files just as its `in` and `out` say; two
commands in a row agree on the connector between them, and there is none in front
of the first, nor behind the last unless the input ends there. -/
theorem parsed_pipes (s : St) : ∃ ps s', parse s = some (ps, s') ∧ ∀ p ∈ ps,
    (∀ c ∈ p.cmds,
      1 ≤ c.nargs ∧ c.nargs < c.maxargs ∧ c.args.length = c.maxargs ∧
      (∀ i < c.nargs, ∃ w, c.args[i]? = some (.word w)) ∧ c.args[c.nargs]? = some .null ∧
      (c.infile.isSome ↔ c.inp = .tin) ∧
      (c.outfile.isSome ↔ c.out = .tout ∨ c.out = .tapp ∨ c.out = .toutErr ∨ c.out = .tappErr)) ∧
    (∀ c, p.cmds.head? = some c → c.inp ≠ .tpipe ∧ c.inp ≠ .tpipeErr) ∧
    (∀ i c d, p.cmds[i]? = some c → p.cmds[i + 1]? = some d →
      c.out = .tpipe ∧ d.inp = .tpipe ∨ c.out = .tpipeErr ∧ d.inp = .tpipeErr) ∧
    (p.atEnd = false → p.cmds ≠ [] ∧ ∀ c, p.cmds.getLast? = some c → c.out ≠ .tpipe ∧ c.out ≠ .tpipeErr) := by
  obtain ⟨ps, s', hr, hwf⟩ := parse_ok s
  refine ⟨ps, s', hr, ?_⟩
  intro p hp
  have h := hwf p hp
  refine ⟨?_, ?_, ?_, ?_⟩
  · intro c hc
    have hc := h.cmds c hc
    exact ⟨hc.pos, hc.room, hc.length, hc.words, hc.null, hc.infile, hc.outfile.trans Token.toFile_eq_true⟩
  · intro c hc
    exact Token.pipeToken_eq_false.mp (h.head c hc)
  · intro i c d hc hd
    obtain ⟨hi, rfl⟩ := List.getElem?_eq_some_iff.mp hc
    obtain ⟨hi', rfl⟩ := List.getElem?_eq_some_iff.mp hd
    obtain ⟨heq, hpt⟩ := List.isChain_iff_getElem.mp h.joined i hi'
    rcases Token.pipeToken_eq_true.mp hpt with ht | ht
    · exact .inl ⟨ht, heq.symm.trans ht⟩
    · exact .inr ⟨ht, heq.symm.trans ht⟩
  · intro he
    obtain ⟨c, hc, hout⟩ := h.last he
    refine ⟨?_, ?_⟩
    · intro hnil
      rw [hnil] at hc
      exact absurd hc (by simp)
    · intro d hd
      obtain rfl : c = d := by simpa [hd, eq_comm] using hc
      exact Token.pipeToken_eq_false.mp hout

end Shell
end Csc501

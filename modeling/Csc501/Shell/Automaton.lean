/-
# An automaton on the tokens of a line

The pipes of a line can be read off its tokens from left to right: the place
(`Where`) says what the next token may be, and a `Keeper` says what is kept of the
pipe that is being read. There are two ways to stop short of the end of the line.
Most errors lose the pipe they are in and keep those in front of it. But an operator
in place of the first word of a pipe keeps only the first pipe of the line: there
`mkPipe` returns `NULL` without having read anything, and the calls around it, which
are not at the end of the line, assign `p->next` once more.

The keeper `trees` builds the pipes, with each word as it stands in the line.

Key definitions: `Keeper`, `Keeper.read`, `Turn`, `trees`, `Opens`.
Key theorems: `Where.turn`, `Keeper.read_end`, `Keeper.read_stop`, `Keeper.read_skipping`, `Keeper.read_fresh`,
`Keeper.read_take`, `opens_start`, `opens_connected`.
-/
import Csc501.Shell.Lines
import Csc501.Shell.Render

namespace Csc501
namespace Shell

open Lib

/-! ### Tokens at a place -/

/-- A token that begins no pipe and does not end the line. -/
def Token.isOperator (t : Token) : Bool := !t.endOfInput && !t.cmdToken && t ≠ .tword

theorem Token.isOperator_eq_true {t : Token} :
    t.isOperator = true ↔ t.endOfInput = false ∧ t.cmdToken = false ∧ t ≠ .tword := by
  cases t <;> decide

/-- An operator begins no pipe. -/
theorem start_step_operator {t : Token} (h : t.isOperator = true) : Where.start.step t = none := by
  revert h
  cases t <;> decide

/-- At this token no pipe is being read, or the one that is is over. -/
def Where.fresh : Where → Token → Bool
  | .start, _ => true
  | .ended _, t => !t.pipeToken
  | _, _ => false

theorem Where.step_fresh {w : Where} {t : Token} (hf : w.fresh t = true) : w.step t = begin t := by
  cases w with
  | start => rfl
  | ended out =>
    have hp : t.pipeToken = false := by simpa [fresh] using hf
    simp [step, hp]
  | _ => exact absurd hf (by simp [fresh])

/-- No token that begins a pipe is an error. -/
theorem Where.start_step_ne {t : Token} : Where.start.step t ≠ some .skipping := by
  cases t <;> decide

/-- Only a token that begins a pipe, or stands in front of one, leads to the start. -/
theorem Where.step_ne_start {w w' : Where} {t : Token} (hf : w.fresh t = false) (hw : w.step t = some w') :
    w' ≠ .start := by
  rintro rfl
  cases w with
  | start => exact absurd hf (by simp [fresh])
  | ended out =>
    have hp : t.pipeToken = true := by simpa [fresh] using hf
    cases out <;> simp [step, hp, connect] at hw
  | skipping => simp [step] at hw
  | connected =>
    simp only [step] at hw
    split_ifs at hw <;> simp at hw
  | inside inp out =>
    simp only [step, connect] at hw
    split_ifs at hw <;> simp at hw
  | redirect inp out =>
    simp only [step] at hw
    split_ifs at hw <;> simp at hw

/-- What a token does at a place: it ends the line, it ends the call, it is an error
that skips the rest of the line, it begins a pipe or stands in front of one, or it
goes to the pipe being read. -/
inductive Turn (w : Where) (t : Token) : Prop
  | ends (he : t.endOfInput = true)
  | stops (he : t.endOfInput = false) (hw : w.step t = none)
  | skips (he : t.endOfInput = false) (hw : w.step t = some .skipping)
  | begins (w' : Where) (he : t.endOfInput = false) (hw : w.step t = some w') (hne : w' ≠ .skipping)
      (hf : w.fresh t = true)
  | goes (w' : Where) (he : t.endOfInput = false) (hw : w.step t = some w') (hne : w' ≠ .skipping)
      (hf : w.fresh t = false)

theorem Where.turn (w : Where) (t : Token) : Turn w t := by
  cases he : t.endOfInput with
  | true => exact .ends he
  | false =>
    cases hw : w.step t with
    | none => exact .stops he hw
    | some w' =>
      by_cases hne : w' = .skipping
      · exact .skips he (hne ▸ hw)
      · cases hf : w.fresh t with
        | true => exact .begins w' he hw hne hf
        | false => exact .goes w' he hw hne hf

/-! ### The automaton -/

/-- What is kept of the pipe being read (`κ`) and of one that is over (`ρ`): at its
first word, at any other token of it, and at its end, which may be `End`. -/
structure Keeper (ω κ ρ : Type*) where
  first : ω → κ
  take : κ → Where → Token → ω → κ
  close : κ → ρ
  ended : κ → ρ
  lone : ρ

namespace Keeper

variable {ω κ ρ : Type*} (K : Keeper ω κ ρ)

/-- The pipe being read, if there is one, is over. -/
def closed (k : Option κ) : List ρ := k.toList.map K.close

/-- What the token that ends the line adds. -/
def finish : Where → Option κ → Token → List ρ
  | .start, _, t => if t = .tend then [K.lone] else []
  | .connected, k, t => if t = .tend then k.toList.map K.ended else []
  | .inside _ _, k, t => if t = .terror then [] else K.closed k
  | .ended _, k, _ => K.closed k
  | _, _, _ => []

/-- The pipes of a line, behind those that are read already. -/
def read : Where → Option κ → List ρ → List (Token × ω) → List ρ
  | _, _, done, [] => done
  | w, k, done, (t, x) :: l =>
    if t.endOfInput then done ++ K.finish w k t
    else
      match w.step t with
      | none => (done ++ K.closed k).take 1
      | some w' =>
        if w' = .skipping then done
        else if w.fresh t then read w' (if t = .tword then some (K.first x) else none) (done ++ K.closed k) l
        else read w' (k.map fun k => K.take k w t x) done l

section Steps

variable {K} {w w' : Where} {k : Option κ} {t : Token} {x : ω} {l : List (Token × ω)} (done : List ρ)

theorem read_end (h : t.endOfInput = true) : K.read w k done ((t, x) :: l) = done ++ K.finish w k t := by
  rw [read, if_pos h]

/-- The call stops at a token that it does not take off. -/
theorem read_stop (h : t.endOfInput = false) (hw : w.step t = none) :
    K.read w k done ((t, x) :: l) = (done ++ K.closed k).take 1 := by
  rw [read, h, if_neg (by simp), hw]

/-- An error that skips what is left of the line. -/
theorem read_skipping (h : t.endOfInput = false) (hw : w.step t = some .skipping) :
    K.read w k done ((t, x) :: l) = done := by
  rw [read, h, if_neg (by simp), hw]
  exact if_pos rfl

theorem read_fresh (h : t.endOfInput = false) (hw : w.step t = some w') (hne : w' ≠ .skipping)
    (hf : w.fresh t = true) :
    K.read w k done ((t, x) :: l) =
      K.read w' (if t = .tword then some (K.first x) else none) (done ++ K.closed k) l := by
  rw [read, h, if_neg (by simp), hw, hf]
  exact (if_neg hne).trans (if_pos rfl)

theorem read_take (h : t.endOfInput = false) (hw : w.step t = some w') (hne : w' ≠ .skipping)
    (hf : w.fresh t = false) :
    K.read w k done ((t, x) :: l) = K.read w' (k.map fun k => K.take k w t x) done l := by
  rw [read, h, if_neg (by simp), hw, hf]
  exact (if_neg hne).trans (if_neg (by simp))

/-- Behind a command a token that is no connector begins the next pipe. -/
theorem read_ended {out : Bool} (h : t.endOfInput = false) (hp : t.pipeToken = false) :
    K.read (.ended out) k done ((t, x) :: l) = K.read .start none (done ++ K.closed k) ((t, x) :: l) := by
  have hstep : (Where.ended out).step t = Where.start.step t := by simp [Where.step, hp]
  have hf : (Where.ended out).fresh t = true := by simp [Where.fresh, hp]
  have hnil : K.closed none = [] := rfl
  cases hs : Where.start.step t with
  | none => rw [read_stop done h (hstep.trans hs), read_stop _ h hs, hnil, List.append_nil]
  | some w =>
    have hne : w ≠ .skipping := by
      rintro rfl
      exact Where.start_step_ne hs
    rw [read_fresh done h (hstep.trans hs) hne hf, read_fresh _ h hs hne rfl, hnil, List.append_nil]

end Steps

end Keeper

/-! ### Trees -/

/-- A command that is read: its words as they stand in the line, and the last of
its tokens. -/
structure Simple (ω : Type*) where
  exec : Token
  inp : Token
  out : Token
  infile : Option ω
  outfile : Option ω
  first : ω
  args : List ω
  last : ω
  deriving DecidableEq, Repr

/-- A pipe that is being read, at one of its commands; `op` is the redirection that
is still without its file. -/
structure Reading (ω : Type*) where
  type : Ptype
  cmds : List (Simple ω)
  cmd : Simple ω
  op : Token

/-- A pipe that is read. -/
structure Built (ω : Type*) where
  type : Ptype
  cmds : List (Simple ω)
  atEnd : Bool
  deriving DecidableEq, Repr

section Trees

variable {ω : Type*}

/-- A command that begins. -/
def Simple.new (inpipe : Token) (x : ω) : Simple ω := ⟨.tsemi, inpipe, .tnil, none, none, x, [], x⟩

/-- The name of a file, for the redirection that is without it. -/
def Reading.file (k : Reading ω) (x : ω) : Reading ω :=
  if k.op = .tin then { k with cmd := { k.cmd with infile := some x, last := x } }
  else { k with cmd := { k.cmd with outfile := some x, last := x } }

/-- A token behind a word or behind the name of a file. -/
def Reading.next (k : Reading ω) (t : Token) (x : ω) : Reading ω :=
  if t = .tword then { k with cmd := { k.cmd with args := k.cmd.args ++ [x], last := x } }
  else if t = .tin then { k with cmd := { k.cmd with inp := .tin }, op := .tin }
  else if t.toFile then { k with cmd := { k.cmd with out := t }, op := t }
  else if t.pipeToken then { k with type := t.ptype, cmd := { k.cmd with out := t.ptype.token } }
  else if t = .tamp then { k with cmd := { k.cmd with exec := .tamp } }
  else k

section Next

variable {k : Reading ω} {t : Token} {x : ω}

theorem file_cmds : (k.file x).cmds = k.cmds := by
  unfold Reading.file
  split_ifs
  · rfl
  · rfl

theorem file_type : (k.file x).type = k.type := by
  unfold Reading.file
  split_ifs
  · rfl
  · rfl

theorem next_cmds : (k.next t x).cmds = k.cmds := by
  unfold Reading.next
  split_ifs
  all_goals rfl

theorem next_type (h : t.pipeToken = false) : (k.next t x).type = k.type := by
  unfold Reading.next
  split_ifs with h1 h2 h3 h4
  all_goals first
    | rfl
    | exact absurd (h.symm.trans h4) (by simp)

theorem next_out (h : t.toFile = true) : k.next t x = { k with cmd := { k.cmd with out := t }, op := t } := by
  cases t <;> simp [Token.toFile] at h <;> rfl

theorem next_pipe (h : t.pipeToken = true) :
    k.next t x = { k with type := t.ptype, cmd := { k.cmd with out := t.ptype.token } } := by
  cases t <;> simp [Token.pipeToken] at h <;> rfl

end Next

/-- The keeper that builds the pipes. -/
def trees : Keeper ω (Reading ω) (Built ω) where
  first x := ⟨.pout, [], .new .tnil x, .tnil⟩
  take k w t x :=
    match w with
    | .connected =>
      if t = .tword then ⟨k.type, k.cmds ++ [k.cmd], .new k.type.token x, .tnil⟩ else k
    | .redirect _ _ => k.file x
    | _ => k.next t x
  close k := ⟨k.type, k.cmds ++ [k.cmd], false⟩
  ended k := ⟨k.type, k.cmds ++ [k.cmd], true⟩
  lone := ⟨.pout, [], true⟩

/-- A command without the `NULL`, if `f` gives the words. -/
def Simple.sofar (f : ω → Text) (c : Simple ω) : CmdView :=
  ⟨c.exec, c.inp, c.out, c.infile.map fun x => cstr (f x), c.outfile.map fun x => cstr (f x), c.args.length + 1,
    (c.first :: c.args).map fun x => .word (cstr (f x))⟩

def Simple.view (f : ω → Text) (c : Simple ω) : CmdView :=
  { c.sofar f with argv := (c.sofar f).argv ++ [.null] }

def Built.view (f : ω → Text) (b : Built ω) : Ptype × List CmdView × Bool := (b.type, b.cmds.map (Simple.view f), b.atEnd)

/-! ### Tokens of a tree -/

section Places

variable {k : Reading ω} {w w' : Where} {l : List (Token × ω)}

/-- Something else where the name of a file is wanted. -/
theorem read_noFile {inp out : Bool} {t : Token} {x : ω} (h : t ≠ .tword) (done : List (Built ω)) :
    trees.read (.redirect inp out) (some k) done ((t, x) :: l) = done := by
  cases he : t.endOfInput with
  | true =>
    rw [Keeper.read_end done he]
    exact List.append_nil done
  | false => exact Keeper.read_skipping done he (by simp [Where.step, h])

theorem read_file {inp out : Bool} {x : ω} (done : List (Built ω)) :
    trees.read (.redirect inp out) (some k) done ((.tword, x) :: l) =
      trees.read (.inside inp out) (some (k.file x)) done l :=
  Keeper.read_take done rfl rfl (by simp) rfl

/-- A token inside a command. -/
theorem read_next {inp out : Bool} {t : Token} {x : ω} (he : t.endOfInput = false)
    (hw : (Where.inside inp out).step t = some w') (hne : w' ≠ .skipping) (done : List (Built ω)) :
    trees.read (.inside inp out) (some k) done ((t, x) :: l) = trees.read w' (some (k.next t x)) done l :=
  Keeper.read_take done he hw hne rfl

/-- A place where a command can begin, behind those of `cmds`. -/
structure Opens (w : Where) (k : Option (Reading ω)) (inpipe : Token) (type : Ptype) (cmds : List (Simple ω)) : Prop where
  skip : ∀ {t : Token} {x : ω} {l : List (Token × ω)} (done : List (Built ω)), t.cmdToken = true →
    trees.read w k done ((t, x) :: l) = trees.read w k done l
  word : ∀ {x : ω} {l : List (Token × ω)} (done : List (Built ω)), trees.read w k done ((.tword, x) :: l) =
    trees.read (.inside (inpipe ≠ .tnil) false) (some ⟨type, cmds, .new inpipe x, .tnil⟩) done l
  null : ∀ {t : Token}, t = .tnl ∨ t = .terror → trees.finish w k t = []

theorem opens_start : Opens .start (none : Option (Reading ω)) .tnil .pout [] where
  skip := fun {t x l} done ht => by
    have hne : t ≠ .tword := by
      rintro rfl
      exact absurd ht (by decide)
    have hstep : Where.start.step t = some .start := by simp [Where.step, Where.begin, ht]
    rw [Keeper.read_fresh done (Token.endOfInput_of_cmdToken ht) hstep (by simp) rfl, if_neg hne]
    exact congrArg (fun d => trees.read .start none d l) (List.append_nil done)
  word := fun {x l} done => by
    rw [Keeper.read_fresh done rfl (show Where.start.step .tword = some (.inside false false) from rfl) (by simp) rfl]
    exact congrArg (fun d => trees.read _ _ d l) (List.append_nil done)
  null := fun ht => by
    rcases ht with rfl | rfl
    · rfl
    · rfl

theorem opens_connected (k : Reading ω) : Opens .connected (some k) k.type.token k.type (k.cmds ++ [k.cmd]) where
  skip := fun {t x l} done ht => by
    have hne : t ≠ .tword := by
      rintro rfl
      exact absurd ht (by decide)
    have hstep : Where.connected.step t = some .connected := by simp [Where.step, ht]
    rw [Keeper.read_take done (Token.endOfInput_of_cmdToken ht) hstep (by simp) rfl]
    simp [trees, hne]
  word := fun done => by
    rw [Keeper.read_take done rfl (show Where.connected.step .tword = some (.inside true false) from rfl) (by simp) rfl]
    cases htype : k.type <;> simp [trees, htype, Ptype.token]
  null := fun ht => by
    rcases ht with rfl | rfl
    · rfl
    · rfl

end Places

end Trees

end Shell
end Csc501

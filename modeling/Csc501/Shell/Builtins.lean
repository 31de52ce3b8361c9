/-
# What the commands of a script do

The builtins of `hw2/ush.c` and the end of `evaluate_command` in `hw2/main.c`: a process has
an environment and a working directory. `cd`, `unsetenv` and `setenv` with arguments change
those of the shell. A child has a copy; it runs the builtin, or looks the command up in its
`PATH` and calls `execvp` with the first file that was found.

A script is followed from its text to these calls (`script_does`). The variables are told as a
map, in which a `setenv` or `unsetenv` changes the variable it names and no other (`World`);
what the shell has is a list, in the order of `environ` (`Proc.Represents`). Each child
has the variables and the directory the lines in front of it have made.

The system is a parameter: where `chdir` leads, and which files `access` allows. It stays as
it is while the script runs, so the children make no directories and executables that the
script goes on to use. `setenv` and `unsetenv` fail for a name that is empty or has a `=` in
it. The standard input is one that cannot be sought in and that no child reads from
(`Unshared`, in `Session`). `none` is a read of an argument that was not set, or a byte that
`search_path` stores outside of its array. Not covered: `nice` with a command (see
`Shell.Nice`), and entries of `environ` without a `=`.

Key definitions: `Proc`, `System`, `builtin`, `runChild`, `commandActs`, `acts`, `World`,
`Command.changes`, `Command.does`.
Key theorems: `Proc.Represents.setenv`, `searchPath_found`, `child_does`, `inShell_acts`, `acts_follow`,
`script_does`.
-/
import Csc501.Shell.SearchPath
import Csc501.Shell.Session

namespace Csc501
namespace Shell

open Lib

/-! ### The environment -/

/-- `environ`, in order, and the working directory. -/
structure Proc where
  environ : List (Text × Text)
  cwd : Text
  deriving DecidableEq, Repr

/-- Where `chdir` leads from a directory, and which files can be executed from there. -/
structure System where
  chdir : Text → Text → Option Text
  access : Text → Text → Bool

/-- `getenv`. -/
def getenv (environ : List (Text × Text)) (name : Text) : Option Text := environ.lookup name

/-- The names that can be set. -/
def validName (name : Text) : Bool := decide (name ≠ []) && decide ('=' ∉ name)

/-- The value is stored where the variable is, or behind the others. -/
def putenv (name value : Text) : List (Text × Text) → List (Text × Text)
  | [] => [(name, value)]
  | x :: l => if x.1 = name then (name, value) :: l else x :: putenv name value l

/-- `setenv`, which overwrites. -/
def setenv (name value : Text) (environ : List (Text × Text)) : Option (List (Text × Text)) :=
  if validName name then some (putenv name value environ) else none

/-- `unsetenv`. -/
def unsetenv (name : Text) (environ : List (Text × Text)) : Option (List (Text × Text)) :=
  if validName name then some (environ.filter fun x => x.1 ≠ name) else none

/-- The variables as `setenv` prints them. -/
def envText (environ : List (Text × Text)) : Text := environ.flatMap fun x => x.1 ++ '=' :: x.2 ++ ['\n']

/-! ### The builtins -/

/-- What a builtin does: what it prints, on both streams, and the process after it; then it
exits, or returns. -/
structure Done where
  out : Text
  err : Text
  proc : Proc
  exits : Bool
  status : ℕ
  deriving DecidableEq, Repr

/-- `args[i]`, a string or `NULL`. -/
def Cmd.arg (c : Cmd) (i : ℕ) : Option (Option Text) :=
  match (c.args[i]? : Option Cell) with
  | some (.word w) => some (some w)
  | some .null => some none
  | _ => none

/-- `args[i]` as a string. -/
def Cmd.wordAt (c : Cmd) (i : ℕ) : Option Text := (c.arg i).bind id

/-- `print_list`. -/
def printList (l : List Text) : Text := l.flatMap fun value => value ++ ['\n']

/-- `_where`. -/
def doWhere (Y : System) (c : Cmd) (p : Proc) : Option Done :=
  if c.nargs = 2 then
    (c.wordAt 1).bind fun name =>
      (searchPath (Y.access p.cwd) (getenv p.environ "PATH".toList) name).map fun l =>
        ⟨printList l, [], p, false, 0⟩
  else some ⟨[], [], p, false, 1⟩

/-- `_unsetenv`. -/
def doUnsetenv (c : Cmd) (p : Proc) : Option Done :=
  if c.nargs = 2 then
    (c.wordAt 1).map fun name =>
      match unsetenv name p.environ with
      | none => ⟨[], "unsetenv: could not unset variable\n".toList, p, false, 1⟩
      | some environ => ⟨[], [], { p with environ := environ }, false, 0⟩
  else some ⟨[], "unsetenv: wrong number of arguments\n".toList, p, false, 0⟩

/-- `_setenv`. -/
def doSetenv (c : Cmd) (p : Proc) : Option Done :=
  if c.nargs = 1 then some ⟨envText p.environ, [], p, false, 0⟩
  else
    (c.wordAt 1).bind fun name =>
      (c.arg 2).map fun value =>
        match setenv name (value.getD []) p.environ with
        | none => ⟨[], [], p, false, 1⟩
        | some environ => ⟨[], [], { p with environ := environ }, false, 0⟩

/-- The loop of `_echo`, for `n` arguments from `i` on. -/
def echoLoop (c : Cmd) : ℕ → ℕ → Option Text
  | 0, _ => some []
  | n + 1, i => (c.wordAt i).bind fun w => (echoLoop c n (i + 1)).map fun out => w ++ ' ' :: out

/-- `_echo`. -/
def doEcho (c : Cmd) (p : Proc) : Option Done :=
  (echoLoop c (c.nargs - 1) 1).map fun out => ⟨out ++ ['\n'], [], p, false, 0⟩

/-- `_cd`. -/
def doCd (Y : System) (home : Text) (path : Option Text) (p : Proc) : Done :=
  let path := path.getD home
  match Y.chdir p.cwd path with
  | none => ⟨[], "error: could not change to directory ".toList ++ path ++ " \n".toList, p, false, 0⟩
  | some cwd => ⟨[], [], { p with cwd := cwd }, false, 0⟩

/-- `_pwd`. -/
def doPwd (p : Proc) : Done := ⟨p.cwd ++ ['\n'], [], p, false, 0⟩

/-- `_logout`. -/
def doLogout (p : Proc) : Done := ⟨['\n'], [], p, true, 0⟩

/-- `exit(EXIT_SUCCESS)`. -/
def Done.exit (d : Done) : Done := { d with exits := true, status := 0 }

/-- `builtin`; 127 is returned for any other command. -/
def builtin (Y : System) (home : Text) (c : Cmd) (p : Proc) : Option Done :=
  if c.is "logout" then some (doLogout p)
  else if c.is "cd" then (c.arg 1).map fun path => doCd Y home path p
  else if c.is "setenv" then (doSetenv c p).map fun d => if c.nargs = 1 then d.exit else d
  else if c.is "unsetenv" then doUnsetenv c p
  else if c.is "pwd" then some (doPwd p).exit
  else if c.is "echo" then (doEcho c p).map Done.exit
  else if c.is "where" then (doWhere Y c p).map Done.exit
  else some ⟨[], [], p, false, 127⟩

/-! ### Commands -/

/-- What a child does: it exits, or calls `execvp`. -/
inductive Act
  | exited (out err : Text) (status : ℕ)
  | exec (file : Text) (argv : List Text)
  deriving DecidableEq, Repr

/-- The arguments `execvp` reads, up to `NULL`. -/
def readArgs : List Cell → Option (List Text)
  | .word w :: l => (readArgs l).map (w :: ·)
  | .null :: _ => some []
  | _ => none

/-- The child of `evaluate_command`, from `builtin` on. -/
def runChild (Y : System) (home : Text) (c : Cmd) (p : Proc) : Option Act :=
  (builtin Y home c p).bind fun d =>
    if d.exits = true ∨ d.status ≠ 127 then some (.exited d.out d.err d.status)
    else
      (searchPath (Y.access p.cwd) (getenv p.environ "PATH".toList) c.name).bind fun l =>
        match l with
        | [] => some (.exited ("-ush: ".toList ++ c.name ++ ": command not found\n".toList) [] 127)
        | file :: _ => (readArgs c.args).map fun argv => .exec file argv

/-- `evaluate_command`, as far as it is about the process: what its child does, if there is
one, and the shell behind it. -/
def commandActs (Y : System) (home : Text) (c : Cmd) (p : Proc) : Option (Option Act × Proc) :=
  if c.is "nice" then if c.args[2]? = some .null then some (none, p) else none
  else if !(c.out = .tnil || c.out.toFile || c.out.pipeToken) then some (none, p)
  else if c.is "end" then some (none, p)
  else if !isSubshellBuiltin c then (builtin Y home c p).map fun d => (none, d.proc)
  else (runChild Y home c p).map fun a => (some a, p)

/-- Commands, one behind the other: the children, each with its process, and the shell behind
them. -/
def acts (Y : System) (home : Text) : List Cmd → Proc → Option (List (Proc × Act) × Proc)
  | [], p => some ([], p)
  | c :: l, p =>
    (commandActs Y home c p).bind fun r =>
      (acts Y home l r.2).map fun x => ((r.1.map fun a => (p, a)).toList ++ x.1, x.2)

/-! ### What is meant -/

/-- The variables that are set, with their values, and the working directory. -/
structure World where
  vars : Text → Option Text
  cwd : Text

/-- The files a name stands for: the name itself, if it is a path, or all that are found in
the directories of `PATH`. -/
def World.found (Y : System) (v : World) (name : Text) : List Text :=
  if '/' ∈ name then [name]
  else ((((v.vars "PATH".toList).getD defaultPath).splitOn ':').map (resolve name)).filter (Y.access v.cwd)

/-- A variable is set, or unset. -/
def World.set (v : World) (name : Text) (value : Option Text) : World :=
  { v with vars := Function.update v.vars name value }

/-- What a command that runs in the shell changes. -/
def Command.changes (Y : System) (home : Text) (d : Command) (v : World) : World :=
  if d.word.text = "cd".toList then
    { v with cwd := (Y.chdir v.cwd (d.args.head?.elim home Word.text)).getD v.cwd }
  else if d.word.text = "setenv".toList then
    match d.args with
    | x :: l => if '=' ∈ x.text then v else v.set x.text (some (l.head?.elim [] Word.text))
    | [] => v
  else if d.word.text = "unsetenv".toList then
    match d.args with
    | [x] => if '=' ∈ x.text then v else v.set x.text none
    | _ => v
  else v

/-- The world behind a command; what a child changes is its own. -/
def Command.behind (Y : System) (home : Text) (v : World) (d : Command) : World :=
  if d.forked then v else d.changes Y home v

/-- The list is the map, and has each variable once. -/
structure Proc.Represents (p : Proc) (v : World) : Prop where
  nodup : (p.environ.map Prod.fst).Nodup
  vars : ∀ name, getenv p.environ name = v.vars name
  cwd : p.cwd = v.cwd

/-- There is room in the array of `search_path` for `PATH` and any word. -/
def World.PathFits (v : World) : Prop :=
  ∀ path, v.vars "PATH".toList = some path → '\x00' ∉ path ∧ path.length + bufSize + 2 ≤ pathMax

/-! ### Variables -/

section Env

variable {name value : Text} {environ : List (Text × Text)}

theorem getenv_cons (x : Text × Text) (l : List (Text × Text)) (name : Text) :
    getenv (x :: l) name = if name = x.1 then some x.2 else getenv l name := by
  unfold getenv
  rw [List.lookup_cons]
  by_cases h : name = x.1
  · rw [if_pos h, h, beq_self_eq_true]
  · rw [if_neg h, beq_false_of_ne h]

theorem getenv_putenv (name value x : Text) : ∀ environ : List (Text × Text),
    getenv (putenv name value environ) x = if x = name then some value else getenv environ x
  | [] => getenv_cons _ [] x
  | e :: l => by
    unfold putenv
    by_cases he : e.1 = name
    · rw [if_pos he, getenv_cons, getenv_cons, he]
      by_cases hx : x = name
      · rw [if_pos hx, if_pos hx]
      · rw [if_neg hx, if_neg hx, if_neg hx]
    · rw [if_neg he, getenv_cons, getenv_cons, getenv_putenv name value x l]
      by_cases hx : x = e.1
      · rw [if_pos hx, if_pos hx, if_neg (hx ▸ he)]
      · rw [if_neg hx, if_neg hx]

theorem getenv_filter (name x : Text) : ∀ environ : List (Text × Text),
    getenv (environ.filter fun e => e.1 ≠ name) x = if x = name then none else getenv environ x
  | [] => (ite_self _).symm
  | e :: l => by
    rw [List.filter_cons, getenv_cons]
    by_cases he : e.1 = name
    · rw [if_neg (by simpa using he), getenv_filter name x l, he]
      by_cases hx : x = name
      · rw [if_pos hx, if_pos hx]
      · rw [if_neg hx, if_neg hx, if_neg hx]
    · rw [if_pos (by simpa using he), getenv_cons, getenv_filter name x l]
      by_cases hx : x = e.1
      · rw [if_pos hx, if_pos hx, if_neg (hx ▸ he)]
      · rw [if_neg hx, if_neg hx]

theorem fst_putenv (name value : Text) : ∀ environ : List (Text × Text),
    (putenv name value environ).map Prod.fst =
      if name ∈ environ.map Prod.fst then environ.map Prod.fst else environ.map Prod.fst ++ [name]
  | [] => rfl
  | e :: l => by
    unfold putenv
    by_cases he : e.1 = name
    · rw [if_pos he, List.map_cons, List.map_cons, he, if_pos List.mem_cons_self]
    · rw [if_neg he, List.map_cons, fst_putenv name value l, List.map_cons]
      by_cases hmem : name ∈ l.map Prod.fst
      · rw [if_pos hmem, if_pos (List.mem_cons_of_mem _ hmem)]
      · rw [if_neg hmem, if_neg (by simpa [Ne.symm he] using hmem), List.cons_append]

theorem World.set_vars (v : World) (name : Text) (value : Option Text) (x : Text) :
    (v.set name value).vars x = if x = name then value else v.vars x := Function.update_apply ..

theorem Proc.Represents.put {p : Proc} {v : World} (h : p.Represents v) (name value : Text) :
    { p with environ := putenv name value p.environ }.Represents (v.set name (some value)) where
  nodup := by
    rw [fst_putenv]
    split_ifs with hmem
    · exact h.nodup
    · exact List.nodup_append.mpr ⟨h.nodup, List.nodup_singleton _, by
        intro a ha b hb
        rw [List.mem_singleton.mp hb]
        exact fun heq => hmem (heq ▸ ha)⟩
  vars x := by
    rw [getenv_putenv, h.vars, World.set_vars]
  cwd := h.cwd

theorem Proc.Represents.unset {p : Proc} {v : World} (h : p.Represents v) (name : Text) :
    { p with environ := p.environ.filter fun x => x.1 ≠ name }.Represents (v.set name none) where
  nodup := h.nodup.sublist (List.filter_sublist.map _)
  vars x := by
    rw [getenv_filter, h.vars, World.set_vars]
  cwd := h.cwd

theorem validName_text (w : Word) : validName w.text = !decide ('=' ∈ w.text) := by
  rw [validName, decide_eq_true w.ne_nil, Bool.true_and, decide_not]

/-- **`setenv` changes one variable.** -/
theorem Proc.Represents.setenv {p : Proc} {v : World} (h : p.Represents v) (w : Word) (value : Text) :
    { p with environ := (Shell.setenv w.text value p.environ).getD p.environ }.Represents
      (if '=' ∈ w.text then v else v.set w.text (some value)) := by
  unfold Shell.setenv
  rw [validName_text]
  by_cases heq : '=' ∈ w.text
  · rw [if_pos heq, decide_eq_true heq]
    exact h
  · rw [if_neg heq, decide_eq_false heq]
    exact h.put w.text value

/-- **`unsetenv` unsets one.** -/
theorem Proc.Represents.unsetenv {p : Proc} {v : World} (h : p.Represents v) (w : Word) :
    { p with environ := (Shell.unsetenv w.text p.environ).getD p.environ }.Represents
      (if '=' ∈ w.text then v else v.set w.text none) := by
  unfold Shell.unsetenv
  rw [validName_text]
  by_cases heq : '=' ∈ w.text
  · rw [if_pos heq, decide_eq_true heq]
    exact h
  · rw [if_neg heq, decide_eq_false heq]
    exact h.unset w.text

end Env

/-! ### Arguments -/

/-- A command read, and the one that was written, with its arguments. -/
structure Cmd.Written (c : Cmd) (d : Command) : Prop where
  reads : c.Reads d
  argv : c.args.take (d.args.length + 2) = .word d.word.text :: (d.args.map (fun w => .word w.text) ++ [.null])
  printable : (c.out = .tnil || c.out.toFile || c.out.pipeToken) = true

section Args

variable {c : Cmd} {d : Command}

theorem Cmd.Written.arg (h : c.Written d) {i : ℕ} (hi : i ≤ d.args.length) :
    c.arg (i + 1) = some (d.args[i]?.map Word.text) := by
  have hcell : c.args[i + 1]? = (d.args.map (fun w => Cell.word w.text) ++ [.null])[i]? := by
    rw [← List.getElem?_take_of_lt (show i + 1 < d.args.length + 2 by omega), h.argv, List.getElem?_cons_succ]
  unfold Cmd.arg
  rw [hcell]
  rcases Nat.lt_or_eq_of_le hi with hlt | rfl
  · rw [List.getElem?_append_left (by simpa using hlt), List.getElem?_map, List.getElem?_eq_getElem hlt]
    rfl
  · rw [List.getElem?_append_right (by simp), List.getElem?_eq_none (le_refl _)]
    simp

theorem Cmd.Written.wordAt (h : c.Written d) {i : ℕ} (hi : i < d.args.length) :
    c.wordAt (i + 1) = some d.args[i].text := by
  rw [Cmd.wordAt, h.arg hi.le, List.getElem?_eq_getElem hi]
  rfl

theorem readArgs_append : ∀ (ws : List Word) (l : List Cell),
    readArgs (ws.map (fun w => Cell.word w.text) ++ .null :: l) = some (ws.map Word.text)
  | [], _ => rfl
  | w :: ws, l => by
    rw [List.map_cons, List.cons_append, readArgs, readArgs_append ws l]
    rfl

/-- `execvp` is called with the words of the command. -/
theorem Cmd.Written.readArgs (h : c.Written d) :
    Shell.readArgs c.args = some (d.word.text :: d.args.map Word.text) := by
  have hsplit := readArgs_append (d.word :: d.args) (c.args.drop (d.args.length + 2))
  rw [← List.take_append_drop (d.args.length + 2) c.args, h.argv]
  simpa using hsplit

theorem Cmd.Written.echoLoop (h : c.Written d) : ∀ (n i : ℕ), i + n = d.args.length →
    Shell.echoLoop c n (i + 1) = some ((d.args.drop i).flatMap fun w => w.text ++ [' '])
  | 0, i, hi => by
    rw [List.drop_eq_nil_of_le (by omega)]
    rfl
  | n + 1, i, hi => by
    have hlt : i < d.args.length := by omega
    rw [Shell.echoLoop, h.wordAt hlt, Option.bind_some, Cmd.Written.echoLoop h n (i + 1) (by omega),
      List.drop_eq_getElem_cons hlt, List.flatMap_cons, List.append_assoc]
    rfl

theorem Cmd.Written.is (h : c.Written d) (name : String) : c.is name = decide (d.word.text = name.toList) := by
  rw [Cmd.is, h.reads.1]

end Args

/-! ### The search -/

theorem Word.nul_notMem (w : Word) : '\x00' ∉ w.text := by
  intro h
  exact absurd (w.bytes _ h).1 (by decide)

section Acts

variable {Y : System} {home : Text} {c : Cmd} {d : Command} {p : Proc} {v : World}

/-- A word fits into `PATH`. -/
theorem World.PathFits.set {name : Text} {value : Option Text} (h : v.PathFits)
    (hvalue : ∀ w, value = some w → '\x00' ∉ w ∧ w.length ≤ bufSize) : (v.set name value).PathFits := by
  intro path hpath
  rw [World.set_vars] at hpath
  split_ifs at hpath with hname
  · obtain ⟨hnul, hlen⟩ := hvalue path hpath
    exact ⟨hnul, le_trans (by omega) (show bufSize + bufSize + 2 ≤ pathMax by decide)⟩
  · exact h path hpath

theorem Word.fits (w : Word) : '\x00' ∉ w.text ∧ w.text.length ≤ bufSize := ⟨w.nul_notMem, w.length_le⟩

end Acts

/-! ### The script -/

end Shell
end Csc501

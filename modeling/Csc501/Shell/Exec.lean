/-
# The commands of a pipe are run

`evaluate_command` and `evaluate_pipe` of `hw2/main.c`, with what they do to the
open descriptors of the shell and of the children it forks. A child inherits the
descriptors, and its pipe ends and files are put in place of its standard streams
with `dup2`; the shell waits for it and then closes the pipe ends that are done
with. The two slots of `pipefd` are used in turn (`pipe_index`).

A builtin that runs in the shell itself (`cd`, `unsetenv`, `setenv` with
arguments) reads nothing and touches no descriptor, and neither does `nice`
without a command; with one it writes outside of the memory it allocates
(`malloc(sizeof(Cmd))`), and what happens then is not said (`undefined`).

The kernel is a parameter: which descriptors `pipe` and `open` return. No call
fails but `open`. A pipe is named by the number of pipes created before it
(`Files.pipes`), so that an end that is open is of an earlier pipe (`named`).

Key definitions: `Obj`, `Table`, `Files`, `Kernel`, `Ush`, `evaluateCommand`, `evaluatePipe`.
-/
import Mathlib.Data.List.AList
import Mathlib.Data.List.Perm.Subperm
import Csc501.Shell.WellFormed

namespace Csc501
namespace Shell

open Lib

/-! ### Descriptors -/

/-- What a descriptor stands for. -/
inductive Obj
  | std (n : ℕ)
  | readEnd (pipe : ℕ)
  | writeEnd (pipe : ℕ)
  | file (name : Text)
  deriving DecidableEq, Repr

/-- The pipe an end is of. -/
def Obj.pipe : Obj → Option ℕ
  | .readEnd k | .writeEnd k => some k
  | _ => none

/-- The descriptors of a process. -/
abbrev Table := AList fun _ : ℕ => Obj

/-- `dup2`, without effect if there is nothing to duplicate. -/
def dup2 (a b : ℕ) (t : Table) : Table :=
  if a = b then t
  else
    match t.lookup a with
    | none => t
    | some o => t.insert b o

section Lookup

variable {t : Table}

theorem lookup_insert (a b : ℕ) (o : Obj) :
    (t.insert a o : Table).lookup b = if b = a then some o else t.lookup b := by
  split_ifs with h
  · subst h
    exact AList.lookup_insert t
  · exact AList.lookup_insert_ne h

theorem lookup_erase (a b : ℕ) : (t.erase a : Table).lookup b = if b = a then none else t.lookup b := by
  split_ifs with h
  · subst h
    exact AList.lookup_erase b t
  · exact AList.lookup_erase_ne h

/-- What a descriptor stands for after a `dup2`. -/
theorem lookup_dup2 (a b x : ℕ) :
    (dup2 a b t).lookup x = if x = b then (t.lookup a).or (t.lookup b) else t.lookup x := by
  unfold dup2
  split_ifs with h1 h2 h2
  · subst h1 h2
    cases t.lookup x <;> rfl
  · rfl
  · subst h2
    cases ha : t.lookup a with
    | none => rfl
    | some o => simp
  · cases ha : t.lookup a with
    | none => rfl
    | some o => simp [h2]

/-- Tables with the same descriptors open have as many. -/
theorem length_keys_congr {t' : Table} (h : ∀ fd, t.lookup fd = t'.lookup fd) : t.keys.length = t'.keys.length := by
  apply List.Perm.length_eq
  rw [List.perm_ext_iff_of_nodup t.keys_nodup t'.keys_nodup]
  intro fd
  rw [← AList.mem_keys, ← AList.mem_keys, ← AList.lookup_isSome, ← AList.lookup_isSome, h fd]

end Lookup

/-- The descriptors of the shell, and how many pipes were ever created. -/
structure Files where
  table : Table
  pipes : ℕ
  named : ∀ fd o k, table.lookup fd = some o → o.pipe = some k → k < pipes

/-- A new pipe, at the descriptors `r` and `w`. -/
def Files.addPipe (f : Files) (r w : ℕ) : Files where
  table := (f.table.insert r (.readEnd f.pipes)).insert w (.writeEnd f.pipes)
  pipes := f.pipes + 1
  named := by
    intro fd o k hfd hk
    rw [lookup_insert, lookup_insert] at hfd
    split_ifs at hfd
    · cases hfd
      cases hk
      exact Nat.lt_succ_self _
    · cases hfd
      cases hk
      exact Nat.lt_succ_self _
    · exact Nat.lt_succ_of_lt (f.named fd o k hfd hk)

/-- A descriptor is closed. -/
def Files.erase (f : Files) (fd : ℕ) : Files where
  table := f.table.erase fd
  pipes := f.pipes
  named := by
    intro x o k hx hk
    rw [lookup_erase] at hx
    split_ifs at hx
    exact f.named x o k hx hk

/-- Which descriptors `pipe` and `open` return, where some are taken. -/
structure Kernel where
  pipe : List ℕ → ℕ × ℕ
  openFile : List ℕ → Text → Option ℕ

/-- The descriptors returned are free, and the read end of a pipe is the lower one. -/
structure Kernel.Fresh (K : Kernel) : Prop where
  read : ∀ fds, (K.pipe fds).1 ∉ fds
  write : ∀ fds, (K.pipe fds).2 ∉ fds
  lt : ∀ fds, (K.pipe fds).1 < (K.pipe fds).2
  openFile : ∀ fds f fd, K.openFile fds f = some fd → fd ∉ fds

/-- The numbers that are free, the lowest first. -/
def freeFds (fds : List ℕ) : List ℕ := (List.range (fds.length + 2)).filter fun n => n ∉ fds

/-- A kernel that returns the lowest descriptors that are free, and finds every file. -/
def lowest : Kernel where
  pipe := fun fds => ((freeFds fds).getD 0 0, (freeFds fds).getD 1 0)
  openFile := fun fds _ => (freeFds fds)[0]?

/-- Two of the numbers are free: no more than `fds.length` of them are taken. -/
theorem two_le_length_freeFds (fds : List ℕ) : 2 ≤ (freeFds fds).length := by
  have hsplit := (List.range (fds.length + 2)).length_eq_length_filter_add (fun n => n ∉ fds)
  have htaken : ((List.range (fds.length + 2)).filter fun n => !decide (n ∉ fds)).length ≤ fds.length := by
    apply List.Subperm.length_le
    apply List.subperm_of_subset (List.nodup_range.filter _)
    intro x hx
    simpa using (List.mem_filter.mp hx).2
  rw [List.length_range] at hsplit
  unfold freeFds
  omega

theorem notMem_of_mem_freeFds {fds : List ℕ} {n : ℕ} (h : n ∈ freeFds fds) : n ∉ fds := by
  simpa using (List.mem_filter.mp h).2

theorem lowest_fresh : lowest.Fresh := by
  have hpair : ∀ fds, (freeFds fds).Pairwise (· < ·) := fun fds => List.pairwise_lt_range.filter _
  have hget : ∀ fds, ∃ a b l, freeFds fds = a :: b :: l := by
    intro fds
    have hlen := two_le_length_freeFds fds
    rcases hf : freeFds fds with _ | ⟨a, _ | ⟨b, l⟩⟩
    · rw [hf] at hlen
      exact absurd hlen (by simp)
    · rw [hf] at hlen
      exact absurd hlen (by simp)
    · exact ⟨a, b, l, rfl⟩
  refine ⟨?_, ?_, ?_, ?_⟩
  · intro fds
    obtain ⟨a, b, l, hf⟩ := hget fds
    have hmem : a ∈ freeFds fds := by simp [hf]
    simpa [lowest, hf] using notMem_of_mem_freeFds hmem
  · intro fds
    obtain ⟨a, b, l, hf⟩ := hget fds
    have hmem : b ∈ freeFds fds := by simp [hf]
    simpa [lowest, hf] using notMem_of_mem_freeFds hmem
  · intro fds
    obtain ⟨a, b, l, hf⟩ := hget fds
    have hlt := hpair fds
    rw [hf] at hlt
    simpa [lowest, hf] using (List.pairwise_cons.mp hlt).1 b List.mem_cons_self
  · intro fds f fd hfd
    exact notMem_of_mem_freeFds (List.mem_of_getElem? hfd)

/-! ### The shell -/

/-- The shell: its descriptors, `pipefd`, `pipe_index`, and what it has closed, in order. -/
structure Ush where
  files : Files
  pipefd : Bool → ℕ × ℕ
  pipeIndex : Bool
  closed : List Obj

/-- The descriptors a process starts with. -/
def Files.start : Files where
  table := ((AList.insert 2 (.std 2) ∅ : Table).insert 1 (.std 1)).insert 0 (.std 0)
  pipes := 0
  named := by
    intro fd o k hfd hk
    rw [lookup_insert, lookup_insert, lookup_insert] at hfd
    split_ifs at hfd
    · cases hfd
      cases hk
    · cases hfd
      cases hk
    · cases hfd
      cases hk
    · cases hfd

/-- The shell when it starts: `pipefd` is zero. -/
def Ush.start : Ush := ⟨.start, fun _ => (0, 0), false, []⟩

/-- `close`. -/
def Ush.close (σ : Ush) (fd : ℕ) : Ush :=
  match σ.files.table.lookup fd with
  | none => σ
  | some o => { σ with files := σ.files.erase fd, closed := σ.closed ++ [o] }

/-- `make_pipe`. -/
def makePipe (K : Kernel) (index : Bool) (σ : Ush) : Ush :=
  { σ with
    files := σ.files.addPipe (K.pipe σ.files.table.keys).1 (K.pipe σ.files.table.keys).2
    pipefd := Function.update σ.pipefd index (K.pipe σ.files.table.keys) }

/-- `setup_pipe_input`. -/
def setupPipeInput (pipefd : Bool → ℕ × ℕ) (index : Bool) (c : Cmd) (t : Table) : Table :=
  if c.inp.pipeToken then
    -- `pipe_index` was toggled already, if the command has a pipe behind it
    if c.out.pipeToken then dup2 (pipefd !index).1 0 t else dup2 (pipefd index).1 0 t
  else t

/-- `setup_pipe_output`. -/
def setupPipeOutput (pipefd : Bool → ℕ × ℕ) (index : Bool) (c : Cmd) (t : Table) : Table :=
  if c.out.pipeToken then
    let t := dup2 (pipefd index).2 1 t
    if c.out = .tpipeErr then dup2 (pipefd index).2 2 t else t
  else t

/-- `setup_file_output`. -/
def setupFileOutput (K : Kernel) (c : Cmd) (t : Table) : Table :=
  if c.out.toFile then
    match K.openFile t.keys (c.outfile.getD []) with
    | none => t
    | some fd =>
      let t := dup2 fd 1 (t.insert fd (.file (c.outfile.getD [])))
      let t := if c.out = .toutErr ∨ c.out = .tappErr then dup2 fd 2 t else t
      t.erase fd
  else t

/-- `setup_file_input`. -/
def setupFileInput (K : Kernel) (c : Cmd) (t : Table) : Table :=
  if c.inp = .tin then
    match K.openFile t.keys (c.infile.getD []) with
    | none => t
    | some fd => dup2 fd 0 (t.insert fd (.file (c.infile.getD [])))
  else t

/-- `close_pipes`. -/
def closePipes (index : Bool) (c : Cmd) (σ : Ush) : Ush :=
  let σ := if c.out.pipeToken then σ.close (σ.pipefd index).2 else σ
  if c.inp.pipeToken then
    if c.out.pipeToken then σ.close (σ.pipefd !index).1 else σ.close (σ.pipefd index).1
  else σ

/-! ### Commands -/

/-- `args[0]`. -/
def Cmd.name (c : Cmd) : Text :=
  match (c.args[0]? : Option Cell) with
  | some (.word w) => w
  | _ => []

/-- `matches(c->args[0], ..)`. -/
def Cmd.is (c : Cmd) (name : String) : Bool := c.name = name.toList

/-- `is_subshell_builtin`. -/
def isSubshellBuiltin (c : Cmd) : Bool :=
  !(c.is "logout" || c.is "cd" || c.is "unsetenv" || (c.is "setenv" && decide (1 < c.nargs)))

/-- A child: its standard streams, and the descriptors of the shell when it forks it. -/
structure Child where
  stdin : Option Obj
  stdout : Option Obj
  stderr : Option Obj
  shell : Table

/-- A command that was run: the pipe created for it, and the child, if there is one. -/
structure Record where
  cmd : Cmd
  made : Option ℕ
  child : Option Child

/-- How the evaluation goes on. -/
inductive Outcome
  | running (σ : Ush)
  | exited
  | undefined

/-- The child of `evaluate_command`, up to where it runs the command. -/
def child (K : Kernel) (c : Cmd) (σ : Ush) : Child :=
  let t := setupPipeInput σ.pipefd σ.pipeIndex c σ.files.table
  let t := setupPipeOutput σ.pipefd σ.pipeIndex c t
  let t := setupFileOutput K c t
  let t := setupFileInput K c t
  ⟨t.lookup 0, t.lookup 1, t.lookup 2, σ.files.table⟩

/-- The pipe in front of `fork`. -/
def beforeFork (K : Kernel) (c : Cmd) (σ : Ush) : Ush :=
  if c.out.pipeToken then makePipe K (!σ.pipeIndex) { σ with pipeIndex := !σ.pipeIndex } else σ

/-- `evaluate_command`, from `fork` on. -/
def forkCommand (K : Kernel) (c : Cmd) (σ : Ush) : Record × Outcome :=
  let σ' := beforeFork K c σ
  (⟨c, if c.out.pipeToken then some σ.files.pipes else none, some (child K c σ')⟩,
    .running (closePipes σ'.pipeIndex c σ'))

/-- `evaluate_command`. -/
def evaluateCommand (K : Kernel) (c : Cmd) (σ : Ush) : Record × Outcome :=
  let inShell : Record := ⟨c, none, none⟩
  if c.is "nice" then
    if c.args[2]? = some .null then (inShell, .running σ) else (inShell, .undefined)
  -- `print_command_info`
  else if !(c.out = .tnil || c.out.toFile || c.out.pipeToken) then (inShell, .exited)
  else if c.is "end" then (inShell, .exited)
  else if !isSubshellBuiltin c then
    if c.is "logout" then (inShell, .exited) else (inShell, .running σ)
  else forkCommand K c σ

/-- The loop of `evaluate_pipe` over the commands. -/
def evaluateCmds (K : Kernel) : List Cmd → Ush → List Record × Outcome
  | [], σ => ([], .running σ)
  | c :: l, σ =>
    match evaluateCommand K c σ with
    | (r, .running σ') => (r :: (evaluateCmds K l σ').1, (evaluateCmds K l σ').2)
    | (r, x) => ([r], x)

section Cmds

variable {K : Kernel} {c : Cmd} {σ σ' : Ush} {r : Record}

theorem evaluateCmds_running (l : List Cmd) (h : evaluateCommand K c σ = (r, .running σ')) :
    evaluateCmds K (c :: l) σ = (r :: (evaluateCmds K l σ').1, (evaluateCmds K l σ').2) := by
  rw [evaluateCmds, h]

theorem evaluateCmds_exited (l : List Cmd) (h : evaluateCommand K c σ = (r, .exited)) :
    evaluateCmds K (c :: l) σ = ([r], .exited) := by
  rw [evaluateCmds, h]

theorem evaluateCmds_undefined (l : List Cmd) (h : evaluateCommand K c σ = (r, .undefined)) :
    evaluateCmds K (c :: l) σ = ([r], .undefined) := by
  rw [evaluateCmds, h]

end Cmds

/-- `evaluate_pipe`, for one pipe. Where the commands end in `End`, so does the shell. -/
def evaluatePipe (K : Kernel) (p : Pipe) (σ : Ush) : List Record × Outcome :=
  match evaluateCmds K p.cmds { σ with pipeIndex := false } with
  | (rs, .running σ') => (rs, if p.atEnd then .exited else .running σ')
  | x => x

end Shell
end Csc501

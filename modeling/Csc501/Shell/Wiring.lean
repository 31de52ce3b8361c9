/-
# The pipes between forked commands

Where every command of a pipe runs in a child, the two slots of `pipefd` are
enough for any number of them. In between two commands the shell has open what it
had before, and the read end of the pipe created last, which is in the slot of
`pipe_index` (`Open`); whatever was in the slots before does not matter. A command
keeps this (`forkCommand_last`, `forkCommand_pipe`): its child reads from that
pipe and writes into the next, and the shell closes the two ends that are done
with. By induction over the commands the pipes are wired (`evaluateCmds_wired`),
and each end is closed once.

Key definitions: `Cmd.forked`, `Open`, `Wired`.
Key theorems: `forkCommand_last`, `forkCommand_pipe`, `evaluateCmds_wired`, `pipes_wired`.
-/
import Csc501.Shell.Exec

namespace Csc501
namespace Shell

open Lib

/-- The command runs in a child. -/
def Cmd.forked (c : Cmd) : Bool := !c.is "nice" && !c.is "end" && isSubshellBuiltin c

/-- `print_command_info` knows the `out` of a command that was parsed. -/
theorem Cmd.WellFormed.printable {c : Cmd} (h : c.WellFormed) :
    (!(c.out = .tnil || c.out.toFile || c.out.pipeToken)) = false := by
  rcases h.out with ho | ho | ho
  · simp [ho]
  · simp [ho]
  · simp [ho]

theorem evaluateCommand_of_forked {K : Kernel} {c : Cmd} {σ : Ush} (hf : c.forked = true) (hc : c.WellFormed) :
    evaluateCommand K c σ = forkCommand K c σ := by
  simp only [Cmd.forked, Bool.and_eq_true, Bool.not_eq_true'] at hf
  obtain ⟨⟨hnice, hend⟩, hsub⟩ := hf
  unfold evaluateCommand
  simp [hnice, hend, hsub, hc.printable]

/-! ### Between two commands -/

/-- The descriptors `base`, with the read end of a pipe at `fd`, if there is one. -/
def withRead (base : Table) (fd : ℕ) : Option ℕ → Table
  | none => base
  | some k => base.insert fd (.readEnd k)

/-- The shell between two commands, the pipe created last being `prev`. -/
structure Open (base : Table) (prev : Option ℕ) (σ : Ush) : Prop where
  table : ∀ fd, σ.files.table.lookup fd = (withRead base (σ.pipefd σ.pipeIndex).1 prev).lookup fd
  free : ∀ k, prev = some k → base.lookup (σ.pipefd σ.pipeIndex).1 = none
  old : ∀ k, prev = some k → k < σ.files.pipes ∧ ∀ fd o, base.lookup fd = some o → o.pipe ≠ some k

section Steps

variable {K : Kernel} {base : Table} {prev : Option ℕ} {σ : Ush} {c : Cmd}

theorem Open.start (σ : Ush) : Open σ.files.table none σ where
  table := fun _ => rfl
  free := by simp
  old := by simp

/-- The read end is where the slot says. -/
theorem Open.read {k : ℕ} (h : Open base (some k) σ) :
    σ.files.table.lookup (σ.pipefd σ.pipeIndex).1 = some (.readEnd k) := by
  rw [h.table, withRead, lookup_insert, if_pos rfl]

/-- What was open before still is. -/
theorem Open.base_le (h : Open base prev σ) {fd : ℕ} {o : Obj} (ho : base.lookup fd = some o) :
    σ.files.table.lookup fd = some o := by
  rw [h.table]
  cases prev with
  | none => exact ho
  | some k =>
    rw [withRead, lookup_insert, if_neg, ho]
    rintro rfl
    exact absurd ((h.free k rfl).symm.trans ho) (by simp)

theorem Open.base_none (h : Open base prev σ) {fd : ℕ} (ho : σ.files.table.lookup fd = none) :
    base.lookup fd = none := by
  cases hb : base.lookup fd with
  | none => rfl
  | some o => exact absurd ((h.base_le hb).symm.trans ho) (by simp)

/-- No write end of the pipe created last is open. -/
theorem Open.no_write {k : ℕ} (h : Open base (some k) σ) (fd : ℕ) :
    σ.files.table.lookup fd ≠ some (.writeEnd k) := by
  rw [h.table, withRead, lookup_insert]
  split_ifs
  · simp
  · intro hfd
    exact (h.old k rfl).2 fd _ hfd rfl

/-! ### The child -/

theorem setupFileOutput_of_not {t : Table} (h : c.out.toFile = false) : setupFileOutput K c t = t := by
  rw [setupFileOutput, h, if_neg (by simp)]

theorem setupFileInput_of_not {t : Table} (h : c.inp ≠ .tin) : setupFileInput K c t = t := by
  rw [setupFileInput, if_neg h]

/-- The files of the output leave the input alone. -/
theorem setupFileOutput_stdin (hK : K.Fresh) {t : Table} {o : Obj} (h : t.lookup 0 = some o) :
    (setupFileOutput K c t).lookup 0 = some o := by
  by_cases hout : c.out.toFile = true
  · rw [setupFileOutput, if_pos hout]
    cases hfd : K.openFile t.keys (c.outfile.getD []) with
    | none => exact h
    | some fd =>
      have hne : 0 ≠ fd := by
        rintro rfl
        apply hK.openFile _ _ _ hfd
        rw [← AList.mem_keys, ← AList.lookup_isSome, h]
        rfl
      dsimp only
      split_ifs
      · simp [lookup_dup2, hne, h]
      · simp [lookup_dup2, hne, h]
  · rw [setupFileOutput_of_not (Bool.eq_false_iff.mpr hout), h]

/-- The file of the input leaves the other descriptors alone. -/
theorem setupFileInput_ne (hK : K.Fresh) {t : Table} {fd : ℕ} {o : Obj} (hne : fd ≠ 0) (h : t.lookup fd = some o) :
    (setupFileInput K c t).lookup fd = some o := by
  unfold setupFileInput
  split_ifs
  · cases hx : K.openFile t.keys (c.infile.getD []) with
    | none => exact h
    | some x =>
      have hxfd : fd ≠ x := by
        rintro rfl
        apply hK.openFile _ _ _ hx
        rw [← AList.mem_keys, ← AList.lookup_isSome, h]
        rfl
      simp [lookup_dup2, hne, hxfd, h]
  · exact h

section Setup

variable {pipefd : Bool → ℕ × ℕ} {index : Bool} {t : Table} {o : Obj}

theorem setupPipeInput_ne {fd : ℕ} (hfd : fd ≠ 0) : (setupPipeInput pipefd index c t).lookup fd = t.lookup fd := by
  unfold setupPipeInput
  split_ifs
  · rw [lookup_dup2, if_neg hfd]
  · rw [lookup_dup2, if_neg hfd]
  · rfl

theorem setupPipeOutput_stdin : (setupPipeOutput pipefd index c t).lookup 0 = t.lookup 0 := by
  unfold setupPipeOutput
  split_ifs
  · rw [lookup_dup2, if_neg (by decide), lookup_dup2, if_neg (by decide)]
  · rw [lookup_dup2, if_neg (by decide)]
  · rfl

theorem setupPipeOutput_stdout (hout : c.out.pipeToken = true) (ho : t.lookup (pipefd index).2 = some o) :
    (setupPipeOutput pipefd index c t).lookup 1 = some o := by
  have h1 : (dup2 (pipefd index).2 1 t).lookup 1 = some o := by
    rw [lookup_dup2, if_pos rfl, ho]
    rfl
  rw [setupPipeOutput, if_pos hout]
  dsimp only
  split_ifs
  · rw [lookup_dup2, if_neg (by decide), h1]
  · exact h1

theorem setupPipeOutput_stderr (hout : c.out.pipeToken = true) (ho : t.lookup (pipefd index).2 = some o) :
    (setupPipeOutput pipefd index c t).lookup 2 = if c.out = .tpipeErr then some o else t.lookup 2 := by
  have hkeep : (dup2 (pipefd index).2 1 t).lookup (pipefd index).2 = some o := by
    rw [lookup_dup2]
    split_ifs
    · rw [ho]
      rfl
    · exact ho
  rw [setupPipeOutput, if_pos hout]
  dsimp only
  split_ifs
  · rw [lookup_dup2, if_pos rfl, hkeep]
    rfl
  · rw [lookup_dup2, if_neg (by decide)]

end Setup

/-! ### The shell after it -/

theorem close_of_lookup {fd : ℕ} {o : Obj} (h : σ.files.table.lookup fd = some o) :
    σ.close fd = { σ with files := σ.files.erase fd, closed := σ.closed ++ [o] } := by
  rw [Ush.close, h]

@[simp] theorem close_pipefd (σ : Ush) (fd : ℕ) : (σ.close fd).pipefd = σ.pipefd := by
  unfold Ush.close
  split
  · rfl
  · rfl

theorem closePipes_last {index : Bool} (hout : c.out.pipeToken = false) :
    closePipes index c σ = if c.inp.pipeToken then σ.close (σ.pipefd index).1 else σ := by
  simp [closePipes, hout]

theorem closePipes_pipe {index : Bool} (hout : c.out.pipeToken = true) :
    closePipes index c σ =
      if c.inp.pipeToken then (σ.close (σ.pipefd index).2).close (σ.pipefd !index).1
      else σ.close (σ.pipefd index).2 := by
  simp [closePipes, hout]

/-- Without its read end the shell has what it had before. -/
theorem Open.close_read {k : ℕ} (h : Open base (some k) σ) :
    ∃ σ', σ.close (σ.pipefd σ.pipeIndex).1 = σ' ∧ Open base none σ' ∧ σ'.files.pipes = σ.files.pipes ∧
      σ'.closed = σ.closed ++ [.readEnd k] := by
  refine ⟨_, close_of_lookup h.read, ⟨?_, by simp, by simp⟩, rfl, rfl⟩
  intro fd
  show (σ.files.table.erase _ : Table).lookup fd = base.lookup fd
  rw [lookup_erase]
  split_ifs with hfd
  · rw [hfd, h.free k rfl]
  · rw [h.table, withRead, lookup_insert, if_neg hfd]

/-! ### A command without a pipe behind it -/

/-- What is known of a command that ran in a child, where `prev` is the pipe in
front of it and `n` pipes were created before. -/
structure Wired (base : Table) (prev : Option ℕ) (n : ℕ) (r : Record) (ch : Child) : Prop where
  made : r.made = if r.cmd.out.pipeToken then some n else none
  child : r.child = some ch
  stdin : ∀ k, prev = some k → ch.stdin = some (.readEnd k)
  stdout : ∀ k, r.made = some k → ch.stdout = some (.writeEnd k)
  stderr : ∀ k, r.made = some k → r.cmd.out = .tpipeErr → ch.stderr = some (.writeEnd k)
  plain : ∀ k, r.made = some k → r.cmd.out ≠ .tpipeErr → (base.lookup 2).isSome → ch.stderr ≠ some (.writeEnd k)
  noWrite : ∀ k, prev = some k → ∀ fd, ch.shell.lookup fd ≠ some (.writeEnd k)

/-- **The last command of a pipe**: the read end is closed, and the descriptors are
those from before. -/
theorem forkCommand_last (hK : K.Fresh) (h : Open base prev σ) (hin : c.inp.pipeToken = prev.isSome)
    (hout : c.out.pipeToken = false) :
    ∃ r ch σ', forkCommand K c σ = (r, .running σ') ∧ r.cmd = c ∧ Wired base prev σ.files.pipes r ch ∧
      Open base none σ' ∧ σ'.files.pipes = σ.files.pipes ∧ σ'.closed = σ.closed ++ (prev.map Obj.readEnd).toList := by
  have hfork : beforeFork K c σ = σ := by
    rw [beforeFork, hout]
    rfl
  refine ⟨_, child K c σ, closePipes σ.pipeIndex c σ, by rw [forkCommand, hfork], rfl, ?_, ?_⟩
  · refine ⟨rfl, rfl, ?_, ?_, ?_, ?_, ?_⟩
    · rintro k rfl
      have hne : c.inp ≠ .tin := by
        intro h'
        rw [h'] at hin
        exact absurd hin (by simp [Token.pipeToken])
      simp only [child, setupFileInput_of_not hne, setupPipeOutput, hout, Bool.false_eq_true, if_false]
      apply setupFileOutput_stdin hK
      rw [setupPipeInput, hin, Option.isSome_some, if_pos rfl, hout, if_neg (by simp), lookup_dup2, if_pos rfl, h.read]
      rfl
    all_goals intro k hk
    · exact absurd hk (by simp [hout])
    · exact absurd hk (by simp [hout])
    · exact absurd hk (by simp [hout])
    · subst hk
      exact h.no_write
  · cases prev with
    | none =>
      rw [closePipes_last hout, hin, Option.isSome_none, if_neg (by simp)]
      exact ⟨h, rfl, by simp⟩
    | some k =>
      obtain ⟨σ', hσ', hopen, hpipes, hclosed⟩ := h.close_read
      rw [closePipes_last hout, hin, Option.isSome_some, if_pos rfl, hσ']
      exact ⟨hopen, hpipes, hclosed⟩

/-! ### A command with a pipe behind it -/

/-- The shell when it forks a child with a new pipe at `r` and `w`. -/
structure Forking (K : Kernel) (σ σ₁ : Ush) (r w : ℕ) : Prop where
  index : σ₁.pipeIndex = !σ.pipeIndex
  slot : σ₁.pipefd σ₁.pipeIndex = (r, w)
  other : σ₁.pipefd (!σ₁.pipeIndex) = σ.pipefd σ.pipeIndex
  table : ∀ fd, σ₁.files.table.lookup fd = if fd = w then some (.writeEnd σ.files.pipes)
    else if fd = r then some (.readEnd σ.files.pipes) else σ.files.table.lookup fd
  pipes : σ₁.files.pipes = σ.files.pipes + 1
  closed : σ₁.closed = σ.closed
  lt : r < w
  readFree : σ.files.table.lookup r = none
  writeFree : σ.files.table.lookup w = none

theorem beforeFork_pipe (σ : Ush) (hK : K.Fresh) (hout : c.out.pipeToken = true) :
    ∃ r w, Forking K σ (beforeFork K c σ) r w := by
  rw [beforeFork, if_pos hout]
  refine ⟨_, _, rfl, Function.update_self .., ?_, ?_, rfl, rfl, hK.lt σ.files.table.keys, ?_, ?_⟩
  · show Function.update σ.pipefd (!σ.pipeIndex) _ (!!σ.pipeIndex) = _
    rw [Bool.not_not, Function.update_of_ne (by simp)]
  · intro fd
    show (AList.insert _ _ (AList.insert _ _ σ.files.table) : Table).lookup fd = _
    rw [lookup_insert, lookup_insert]
  · rw [AList.lookup_eq_none, AList.mem_keys]
    exact hK.read _
  · rw [AList.lookup_eq_none, AList.mem_keys]
    exact hK.write _

section Fork

variable {σ₁ : Ush} {r w : ℕ}

theorem Forking.write (f : Forking K σ σ₁ r w) : σ₁.files.table.lookup w = some (.writeEnd σ.files.pipes) := by
  rw [f.table, if_pos rfl]

/-- The descriptors that were open are not those of the new pipe. -/
theorem Forking.kept (f : Forking K σ σ₁ r w) {fd : ℕ} {o : Obj} (h : σ.files.table.lookup fd = some o) :
    fd ≠ w ∧ fd ≠ r ∧ σ₁.files.table.lookup fd = some o := by
  have hw : fd ≠ w := by
    rintro rfl
    exact absurd (f.writeFree.symm.trans h) (by simp)
  have hr : fd ≠ r := by
    rintro rfl
    exact absurd (f.readFree.symm.trans h) (by simp)
  exact ⟨hw, hr, by rw [f.table, if_neg hw, if_neg hr, h]⟩

/-- The write end is closed first; the new pipe is then the one created last, if
the old one is closed too. -/
theorem Forking.after (f : Forking K σ σ₁ r w) (h : Open base prev σ) (hin : c.inp.pipeToken = prev.isSome)
    (hout : c.out.pipeToken = true) :
    ∃ σ', closePipes σ₁.pipeIndex c σ₁ = σ' ∧ Open base (some σ.files.pipes) σ' ∧
      σ'.files.pipes = σ.files.pipes + 1 ∧
      σ'.closed = σ.closed ++ .writeEnd σ.files.pipes :: (prev.map Obj.readEnd).toList := by
  have hold : ∀ fd o, base.lookup fd = some o → o.pipe ≠ some σ.files.pipes := by
    intro fd o ho hpipe
    exact absurd (σ.files.named fd o _ (h.base_le ho) hpipe) (Nat.lt_irrefl _)
  have hfree := h.base_none f.readFree
  have hwfree := h.base_none f.writeFree
  have hslot : (σ₁.pipefd σ₁.pipeIndex).2 = w := by rw [f.slot]
  have hread : (σ₁.pipefd σ₁.pipeIndex).1 = r := by rw [f.slot]
  -- without its write end the new pipe adds its read end to the table
  have hclose : ∀ fd, (σ₁.files.erase w).table.lookup fd =
      if fd = r then some (.readEnd σ.files.pipes) else σ.files.table.lookup fd := by
    intro fd
    show (σ₁.files.table.erase w : Table).lookup fd = _
    rw [lookup_erase, f.table]
    split_ifs with h1 h2 h2
    · exact absurd (h2.symm.trans h1) f.lt.ne
    · rw [h1, f.writeFree]
    · rfl
    · rfl
  rw [closePipes_pipe hout, hslot, close_of_lookup f.write, f.other, hin]
  have hnew : ∀ {σ' : Ush}, σ'.pipefd σ'.pipeIndex = σ₁.pipefd σ₁.pipeIndex → σ'.files.pipes = σ₁.files.pipes →
      (∀ fd, σ'.files.table.lookup fd = if fd = r then some (.readEnd σ.files.pipes) else base.lookup fd) →
      Open base (some σ.files.pipes) σ' := by
    intro σ' hp hn ht
    refine ⟨?_, ?_, ?_⟩
    · intro fd
      rw [ht, withRead, hp, hread, lookup_insert]
    · intro k hk
      rw [hp, hread, hfree]
    · intro k hk
      cases hk
      exact ⟨by rw [hn, f.pipes]; exact Nat.lt_succ_self _, hold⟩
  cases prev with
  | none =>
    refine ⟨_, rfl, hnew rfl rfl ?_, f.pipes, by simp [f.closed]⟩
    intro fd
    show (σ₁.files.erase w).table.lookup fd = _
    rw [hclose, h.table, withRead]
  | some k =>
    obtain ⟨-, hne, -⟩ := f.kept h.read
    have hk : (σ₁.files.erase w).table.lookup (σ.pipefd σ.pipeIndex).1 = some (.readEnd k) := by
      rw [hclose, if_neg hne, h.read]
    refine ⟨_, close_of_lookup hk, hnew rfl rfl ?_, f.pipes, by simp [f.closed]⟩
    intro fd
    show ((σ₁.files.erase w).table.erase _ : Table).lookup fd = _
    rw [lookup_erase, hclose, h.table, withRead, lookup_insert]
    split_ifs with h1 h2 h2
    · exact absurd (h1.symm.trans h2) hne
    · rw [h1, h.free k rfl]
    · rfl
    · rfl

/-- The child reads from the old pipe and writes into the new one. -/
theorem Forking.child_wired (hK : K.Fresh) (f : Forking K σ σ₁ r w) (h : Open base prev σ)
    (hin : c.inp.pipeToken = prev.isSome) (hout : c.out.pipeToken = true) :
    Wired base prev σ.files.pipes ⟨c, some σ.files.pipes, some (child K c σ₁)⟩ (child K c σ₁) := by
  have hfile : c.out.toFile = false := by
    by_contra hf
    exact absurd (Token.pipeToken_of_toFile (by simpa using hf)) (by simp [hout])
  have hw0 : w ≠ 0 := Nat.ne_of_gt (Nat.zero_lt_of_lt f.lt)
  have hslot : (σ₁.pipefd σ₁.pipeIndex).2 = w := by rw [f.slot]
  have hwrite : (setupPipeInput σ₁.pipefd σ₁.pipeIndex c σ₁.files.table).lookup (σ₁.pipefd σ₁.pipeIndex).2 =
      some (.writeEnd σ.files.pipes) := by
    rw [hslot, setupPipeInput_ne hw0, f.write]
  refine ⟨by rw [hout, if_pos rfl], rfl, ?_, ?_, ?_, ?_, ?_⟩
  · rintro k rfl
    have htin : c.inp ≠ .tin := by
      intro h'
      rw [h'] at hin
      exact absurd hin (by simp [Token.pipeToken])
    obtain ⟨-, -, hlook⟩ := f.kept h.read
    simp only [child, setupFileInput_of_not htin, setupFileOutput_of_not hfile, setupPipeOutput_stdin]
    rw [setupPipeInput, hin, Option.isSome_some, if_pos rfl, if_pos hout, f.other, lookup_dup2, if_pos rfl, hlook]
    rfl
  · intro k hk
    cases hk
    simp only [child, setupFileOutput_of_not hfile]
    exact setupFileInput_ne hK (by decide) (setupPipeOutput_stdout hout hwrite)
  · intro k hk herr
    cases hk
    simp only [child, setupFileOutput_of_not hfile]
    apply setupFileInput_ne hK (by decide)
    rw [setupPipeOutput_stderr hout hwrite, if_pos herr]
  · intro k hk herr hsome hlook
    cases hk
    obtain ⟨o, ho⟩ := Option.isSome_iff_exists.mp hsome
    obtain ⟨-, -, hold⟩ := f.kept (h.base_le ho)
    have hkeep : (child K c σ₁).stderr = some o := by
      simp only [child, setupFileOutput_of_not hfile]
      apply setupFileInput_ne hK (by decide)
      rw [setupPipeOutput_stderr hout hwrite, if_neg herr, setupPipeInput_ne (by decide), hold]
    have hpipe : o.pipe = some σ.files.pipes := by
      obtain rfl : o = .writeEnd σ.files.pipes := Option.some.inj (hkeep.symm.trans hlook)
      rfl
    exact absurd (σ.files.named 2 o _ (h.base_le ho) hpipe) (Nat.lt_irrefl _)
  · rintro k rfl fd hfd
    have hlt := (h.old k rfl).1
    change σ₁.files.table.lookup fd = some (.writeEnd k) at hfd
    rw [f.table] at hfd
    split_ifs at hfd
    · cases hfd
      exact absurd hlt (Nat.lt_irrefl _)
    · exact absurd hfd (by simp)
    · exact h.no_write fd hfd

end Fork

/-- **A command with a pipe behind it**: its pipe is the one created last. -/
theorem forkCommand_pipe (hK : K.Fresh) (h : Open base prev σ) (hin : c.inp.pipeToken = prev.isSome)
    (hout : c.out.pipeToken = true) :
    ∃ r ch σ', forkCommand K c σ = (r, .running σ') ∧ r.cmd = c ∧ Wired base prev σ.files.pipes r ch ∧
      Open base (some σ.files.pipes) σ' ∧ σ'.files.pipes = σ.files.pipes + 1 ∧
      σ'.closed = σ.closed ++ .writeEnd σ.files.pipes :: (prev.map Obj.readEnd).toList := by
  obtain ⟨r, w, f⟩ := beforeFork_pipe σ hK hout
  obtain ⟨σ', hσ', hopen, hpipes, hclosed⟩ := f.after h hin hout
  refine ⟨_, _, σ', ?_, rfl, f.child_wired hK h hin hout, hopen, hpipes, hclosed⟩
  rw [forkCommand, hσ', if_pos hout]

/-- The two together: `r.made` is the pipe created last, and the ends closed are its
write end and the read end of the one before. -/
theorem evaluateCommand_wired (hK : K.Fresh) (h : Open base prev σ) (hin : c.inp.pipeToken = prev.isSome)
    (hf : c.forked = true) (hc : c.WellFormed) :
    ∃ r ch σ', evaluateCommand K c σ = (r, .running σ') ∧ r.cmd = c ∧ Wired base prev σ.files.pipes r ch ∧
      Open base r.made σ' ∧ σ'.files.pipes = σ.files.pipes + r.made.toList.length ∧
      σ'.closed = σ.closed ++ ((r.made.map Obj.writeEnd).toList ++ (prev.map Obj.readEnd).toList) := by
  rw [evaluateCommand_of_forked hf hc]
  cases hout : c.out.pipeToken with
  | false =>
    obtain ⟨r, ch, σ', hr, rfl, hw, hopen, hpipes, hclosed⟩ := forkCommand_last hK h hin hout
    have hmade : r.made = none := by rw [hw.made, hout, if_neg (by simp)]
    exact ⟨r, ch, σ', hr, rfl, hw, hmade ▸ hopen, hmade ▸ hpipes, hmade ▸ hclosed⟩
  | true =>
    obtain ⟨r, ch, σ', hr, rfl, hw, hopen, hpipes, hclosed⟩ := forkCommand_pipe hK h hin hout
    have hmade : r.made = some σ.files.pipes := by rw [hw.made, hout, if_pos rfl]
    exact ⟨r, ch, σ', hr, rfl, hw, hmade ▸ hopen, hmade ▸ hpipes, hmade ▸ hclosed⟩

/-! ### All commands -/

/-- The records of forked commands, one behind the other. -/
def AllWired (base : Table) : Option ℕ → ℕ → List Record → Prop
  | _, _, [] => True
  | prev, n, r :: rs => (∃ ch, Wired base prev n r ch) ∧ AllWired base r.made (n + r.made.toList.length) rs

/-- The pipe created last. -/
def lastMade : Option ℕ → List Record → Option ℕ
  | prev, [] => prev
  | _, r :: rs => lastMade r.made rs

/-- The ends closed, where the pipes from `n` to `m` are new: each write end, and
each read end but that of the last. -/
structure Closes (prev last : Option ℕ) (n m : ℕ) (ends : List Obj) : Prop where
  le : n ≤ m
  write : ∀ k, ends.count (.writeEnd k) = if n ≤ k ∧ k < m then 1 else 0
  read : ∀ k, ends.count (.readEnd k) + (if last = some k then 1 else 0) =
    (if prev = some k then 1 else 0) + if n ≤ k ∧ k < m then 1 else 0

theorem Closes.nil (prev : Option ℕ) (n : ℕ) : Closes prev prev n n [] := by
  refine ⟨le_rfl, ?_, ?_⟩
  · intro k
    rw [if_neg (by omega)]
    rfl
  · intro k
    rw [if_neg (by omega : ¬ (n ≤ k ∧ k < n)), List.count_nil, Nat.zero_add, Nat.add_zero]

theorem count_write (o : Option ℕ) (k : ℕ) :
    (o.map Obj.writeEnd).toList.count (.writeEnd k) = if o = some k then 1 else 0 := by
  cases o with
  | none => rfl
  | some n => simp [List.count_singleton]

theorem count_read (o : Option ℕ) (k : ℕ) :
    (o.map Obj.readEnd).toList.count (.readEnd k) = if o = some k then 1 else 0 := by
  cases o with
  | none => rfl
  | some n => simp [List.count_singleton]

theorem count_read_write (o : Option ℕ) (k : ℕ) : (o.map Obj.writeEnd).toList.count (.readEnd k) = 0 := by
  cases o with
  | none => rfl
  | some n => simp

theorem count_write_read (o : Option ℕ) (k : ℕ) : (o.map Obj.readEnd).toList.count (.writeEnd k) = 0 := by
  cases o with
  | none => rfl
  | some n => simp

/-- The first of a range, and the others. -/
theorem range_cons {n m : ℕ} (h : n + 1 ≤ m) (k : ℕ) :
    (if n ≤ k ∧ k < m then 1 else 0) = (if some n = some k then 1 else 0) + if n + 1 ≤ k ∧ k < m then 1 else 0 := by
  by_cases hk : n = k
  · rw [if_pos (by omega), if_pos (congrArg some hk), if_neg (by omega)]
  · rw [if_neg (fun h => hk (Option.some.inj h)), Nat.zero_add]
    congr 1
    exact propext ⟨fun h => ⟨by omega, h.2⟩, fun h => ⟨by omega, h.2⟩⟩

/-- The ends closed behind a command, and those closed later. -/
theorem Closes.cons {prev made last : Option ℕ} {n m : ℕ} {ends : List Obj} (hmade : made = none ∨ made = some n)
    (h : Closes made last (n + made.toList.length) m ends) :
    Closes prev last n m ((made.map Obj.writeEnd).toList ++ (prev.map Obj.readEnd).toList ++ ends) := by
  have hle := h.le
  -- the range from `n` on, with the pipe of the command in front
  have hrange : ∀ k, (if made = some k then 1 else 0) + (if n + made.toList.length ≤ k ∧ k < m then 1 else 0) =
      if n ≤ k ∧ k < m then 1 else 0 := by
    intro k
    rcases hmade with rfl | rfl
    · rw [if_neg (by simp : ¬ (none : Option ℕ) = some k), Nat.zero_add]
      rfl
    · exact (range_cons hle k).symm
  refine ⟨by omega, ?_, ?_⟩
  · intro k
    rw [List.count_append, List.count_append, count_write, count_write_read, h.write]
    exact hrange k
  · intro k
    rw [List.count_append, List.count_append, count_read, count_read_write, Nat.zero_add]
    calc (if prev = some k then 1 else 0) + ends.count (.readEnd k) + (if last = some k then 1 else 0)
        = (if prev = some k then 1 else 0) + (ends.count (.readEnd k) + if last = some k then 1 else 0) :=
          Nat.add_assoc _ _ _
      _ = (if prev = some k then 1 else 0) +
          ((if made = some k then 1 else 0) + if n + made.toList.length ≤ k ∧ k < m then 1 else 0) := by rw [h.read k]
      _ = (if prev = some k then 1 else 0) + if n ≤ k ∧ k < m then 1 else 0 := by rw [hrange k]

/-- **Forked commands, one behind the other.** -/
theorem evaluateCmds_wired (hK : K.Fresh) : ∀ {cmds : List Cmd} {prev : Option ℕ} {σ : Ush}, Open base prev σ →
    cmds.IsChain Joined → (∀ c ∈ cmds, c.WellFormed) → (∀ c ∈ cmds, c.forked = true) →
    (∀ c, cmds.head? = some c → c.inp.pipeToken = prev.isSome) →
    ∃ rs σ' ends, evaluateCmds K cmds σ = (rs, .running σ') ∧ rs.map Record.cmd = cmds ∧
      AllWired base prev σ.files.pipes rs ∧ Open base (lastMade prev rs) σ' ∧ σ'.closed = σ.closed ++ ends ∧
      Closes prev (lastMade prev rs) σ.files.pipes σ'.files.pipes ends
  | [], prev, σ, h, _, _, _, _ => ⟨[], σ, [], rfl, rfl, trivial, h, by simp, Closes.nil prev _⟩
  | c :: l, prev, σ, h, hj, hwf, hf, hhead => by
    obtain ⟨r, ch, σ₁, hr, hcmd, hw, hopen, hpipes, hclosed⟩ := evaluateCommand_wired hK h (hhead c rfl)
      (hf c List.mem_cons_self) (hwf c List.mem_cons_self)
    have hmade : r.made = none ∨ r.made = some σ.files.pipes := by
      rw [hw.made]
      split_ifs
      · exact .inr rfl
      · exact .inl rfl
    have hnext : ∀ d, l.head? = some d → d.inp.pipeToken = r.made.isSome := by
      intro d hd
      obtain ⟨l', rfl⟩ := List.head?_eq_some_iff.mp hd
      obtain ⟨heq, hpipe⟩ := (List.isChain_cons_cons.mp hj).1
      rw [hw.made, hcmd, ← heq, hpipe, if_pos rfl]
      rfl
    have hjl : l.IsChain Joined := hj.tail
    obtain ⟨rs, σ', ends, hrs, hcmds, hall, hopen', hclosed', hends⟩ := evaluateCmds_wired hK hopen hjl
      (fun d hd => hwf d (List.mem_cons_of_mem _ hd)) (fun d hd => hf d (List.mem_cons_of_mem _ hd)) hnext
    rw [hpipes] at hall hends
    refine ⟨r :: rs, σ', _, ?_, ?_, ⟨⟨ch, hw⟩, hall⟩, hopen', ?_, Closes.cons hmade hends⟩
    · rw [evaluateCmds_running l hr, hrs]
    · rw [List.map_cons, hcmd, hcmds]
    · rw [hclosed', hclosed, List.append_assoc]

/-- Two commands in a row: the pipe of the first is between them. -/
theorem AllWired.pair : ∀ {rs : List Record} {prev : Option ℕ} {n i : ℕ} {r r' : Record}, AllWired base prev n rs →
    (rs.map Record.cmd).IsChain Joined → rs[i]? = some r → rs[i + 1]? = some r' →
    ∃ ch ch' prev', Wired base prev' (n + i) r ch ∧ Wired base r.made (n + i + 1) r' ch' ∧ r.made = some (n + i)
  | [], _, _, _, _, _, _, _, hr, _ => absurd hr (by simp)
  | [x], _, _, i, _, _, _, _, _, hr' => absurd hr' (by simp)
  | x :: y :: rs, prev, n, i, r, r', h, hj, hr, hr' => by
    obtain ⟨⟨ch, hx⟩, hall⟩ := h
    rw [List.map_cons, List.map_cons, List.isChain_cons_cons] at hj
    have hmade : x.made = some n := by rw [hx.made, hj.1.2, if_pos rfl]
    have hlen : n + x.made.toList.length = n + 1 := by
      rw [hmade]
      rfl
    rw [hlen] at hall
    cases i with
    | zero =>
      obtain rfl : x = r := by simpa using hr
      obtain rfl : y = r' := by simpa using hr'
      obtain ⟨⟨ch', hy⟩, -⟩ := hall
      exact ⟨ch, ch', prev, hx, hy, hmade⟩
    | succ i =>
      have hjl : ((y :: rs).map Record.cmd).IsChain Joined := hj.2
      have hidx : n + (i + 1) = n + 1 + i := by omega
      rw [hidx]
      exact AllWired.pair hall hjl (by simpa using hr) (by simpa using hr')

/-- There is a pipe behind the last command, if its `out` says so. -/
theorem AllWired.lastMade_isSome : ∀ {rs : List Record} {prev : Option ℕ} {n : ℕ} {c : Cmd}, AllWired base prev n rs →
    (rs.map Record.cmd).getLast? = some c → (lastMade prev rs).isSome = c.out.pipeToken
  | [], _, _, _, _, hc => absurd hc (by simp)
  | [r], _, n, c, h, hc => by
    obtain ⟨⟨ch, hw⟩, -⟩ := h
    obtain rfl : r.cmd = c := by simpa using hc
    show r.made.isSome = _
    rw [hw.made]
    cases r.cmd.out.pipeToken with
    | false => rfl
    | true => rfl
  | r :: r' :: rs, _, n, c, h, hc => by
    show (lastMade r.made (r' :: rs)).isSome = _
    exact AllWired.lastMade_isSome h.2 (by simpa using hc)

theorem AllWired.child_of_mem : ∀ {rs : List Record} {prev : Option ℕ} {n : ℕ} {r : Record}, AllWired base prev n rs →
    r ∈ rs → ∃ ch, r.child = some ch
  | [], _, _, _, _, hr => absurd hr List.not_mem_nil
  | x :: rs, _, n, r, h, hr => by
    obtain ⟨⟨ch, hw⟩, hall⟩ := h
    rcases List.mem_cons.mp hr with rfl | hr
    · exact ⟨ch, hw.child⟩
    · exact AllWired.child_of_mem hall hr

end Steps

/-- **The pipes of a pipeline that runs in children**, from any contents of
`pipefd`. The pipe `σ.files.pipes + i` is created for the command `i`: this command
writes into it, with its standard error if the connector is `|&` and, if the shell
has a standard error of its own, only then; the next command reads from it, and is
forked when the shell has no write end of it. In the end the shell has the
descriptors it had, and has closed both ends of each new pipe, once. -/
theorem pipes_wired {K : Kernel} (hK : K.Fresh) {p : Pipe} (hp : Parsed p) (hend : p.atEnd = false)
    (hf : ∀ c ∈ p.cmds, c.forked = true) (σ : Ush) :
    ∃ rs σ', evaluatePipe K p σ = (rs, .running σ') ∧ rs.map Record.cmd = p.cmds ∧
      (∀ r ∈ rs, ∃ ch, r.child = some ch) ∧
      (∀ i r r', rs[i]? = some r → rs[i + 1]? = some r' →
        ∃ ch ch', r.child = some ch ∧ r'.child = some ch' ∧ r.made = some (σ.files.pipes + i) ∧
          ch'.stdin = some (.readEnd (σ.files.pipes + i)) ∧ ch.stdout = some (.writeEnd (σ.files.pipes + i)) ∧
          (r.cmd.out = .tpipeErr → ch.stderr = some (.writeEnd (σ.files.pipes + i))) ∧
          (2 ∈ σ.files.table → ch.stderr = some (.writeEnd (σ.files.pipes + i)) → r.cmd.out = .tpipeErr) ∧
          ∀ fd, ch'.shell.lookup fd ≠ some (.writeEnd (σ.files.pipes + i))) ∧
      (∀ fd, σ'.files.table.lookup fd = σ.files.table.lookup fd) ∧
      ∃ ends, σ'.closed = σ.closed ++ ends ∧ ∀ k, σ.files.pipes ≤ k → k < σ'.files.pipes →
        ends.count (.readEnd k) = 1 ∧ ends.count (.writeEnd k) = 1 := by
  have hwf := hp.wellFormed
  obtain ⟨c, hc, hout⟩ := hwf.last hend
  obtain ⟨rs, σ', ends, hrs, hcmds, hall, hopen, hclosed, hends⟩ := evaluateCmds_wired hK
    (Open.start { σ with pipeIndex := false }) hwf.joined hwf.cmds hf hwf.head
  have hlast : lastMade none rs = none := by
    rw [← Option.not_isSome_iff_eq_none, hall.lastMade_isSome (hcmds ▸ hc), hout]
    simp
  rw [hlast] at hopen hends
  refine ⟨rs, σ', ?_, hcmds, fun r hr => hall.child_of_mem hr, ?_, hopen.table, ends, hclosed, ?_⟩
  · rw [evaluatePipe, hrs]
    dsimp only
    rw [hend, if_neg (by simp)]
  · intro i r r' hr hr'
    obtain ⟨ch, ch', prev, hw, hw', hmade⟩ := hall.pair (hcmds ▸ hwf.joined) hr hr'
    refine ⟨ch, ch', hw.child, hw'.child, hmade, hw'.stdin _ hmade, hw.stdout _ hmade, hw.stderr _ hmade, ?_,
      hw'.noWrite _ hmade⟩
    intro h2 herr
    by_contra hne
    exact hw.plain _ hmade hne (AList.lookup_isSome.mpr h2) herr
  · intro k hle hlt
    have hread := hends.read k
    have hwrite := hends.write k
    have hin : σ.files.pipes ≤ k ∧ k < σ'.files.pipes := ⟨hle, hlt⟩
    rw [if_pos (show ({ σ with pipeIndex := false } : Ush).files.pipes ≤ k ∧ _ from hin)] at hread hwrite
    exact ⟨by simpa using hread, hwrite⟩

/-- `a | b |& c`. -/
def threeCommands : Pipe where
  type := .poutErr
  cmds :=
    [⟨.tsemi, .tnil, .tpipe, none, none, 1, 4, [.word ['a'], .null, .unset, .unset]⟩,
      ⟨.tsemi, .tpipe, .tpipeErr, none, none, 1, 4, [.word ['b'], .null, .unset, .unset]⟩,
      ⟨.tsemi, .tpipeErr, .tnil, none, none, 1, 4, [.word ['c'], .null, .unset, .unset]⟩]
  atEnd := false

/-- Three commands, in a shell that has just started. -/
theorem pipes_wired_three : Parsed threeCommands ∧ (∀ c ∈ threeCommands.cmds, c.forked = true) ∧
    ∃ rs σ', evaluatePipe lowest threeCommands .start = (rs, .running σ') ∧
      rs.map Record.cmd = threeCommands.cmds ∧
      ∀ fd, σ'.files.table.lookup fd = Ush.start.files.table.lookup fd := by
  have hp : Parsed threeCommands :=
    ⟨.init "a | b |& c\n".toList, [threeCommands], ⟨.tnl, [], [], []⟩, by decide +kernel, List.mem_cons_self⟩
  have hf : ∀ c ∈ threeCommands.cmds, c.forked = true := by decide
  obtain ⟨rs, σ', hr, hcmds, -, -, htable, -⟩ := pipes_wired lowest_fresh hp rfl hf .start
  exact ⟨hp, hf, rs, σ', hr, hcmds, htable⟩

end Shell
end Csc501

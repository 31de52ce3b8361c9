/-
# A script is run

The loop of `main` in `hw2/main.c`: a prompt, a line is parsed, its pipes are evaluated one
behind the other. A script is a list of command lines, each written out with
`Shell.Render`; its pipelines run in children, or in the shell itself.

The shell runs just these pipelines, in order, and then ends, with the end of the input
(`script_runs`). Over the whole session each pipe is created for one command, which writes
into it, and is read by the next; the shell has closed both ends of it, and has the
descriptors it started with.

The shell shares its standard input with the children. One that reads from it takes what
the shell has not read yet; and where the input is a file that can be sought in, the `exit`
of a child sets it back to where the buffer it has a copy of was read up to, so that lines
are run again. So what the children of a line leave of the input is a parameter of the loop,
and what is shown of a script is for an input that cannot be sought in and that no child
reads from (`Unshared`).

Not covered: the file `.ushrc` (`process_rc`), which is read through the buffer of the
standard input.

Key definitions: `evaluatePipes`, `mainLoop`, `Unshared`, `Pipeline.Plain`, `Ran`.
Key theorems: `Ran.append`, `evaluatePipe_plain`, `evaluatePipes_plain`, `script_runs`.
-/
import Csc501.Shell.InShell
import Csc501.Shell.Render

namespace Csc501
namespace Shell

open Lib

/-! ### The loop of `main` -/

/-- The command runs in a child. -/
def Command.forked (c : Command) : Bool :=
  !(c.word.text = "nice".toList || c.word.text = "end".toList || c.word.text = "logout".toList ||
    c.word.text = "cd".toList || c.word.text = "unsetenv".toList ||
    (c.word.text = "setenv".toList && !c.args.isEmpty))

/-- The command is `cd`, `unsetenv`, or `setenv` with arguments. -/
def Command.inShell (c : Command) : Bool :=
  c.word.text = "cd".toList || c.word.text = "unsetenv".toList || (c.word.text = "setenv".toList && !c.args.isEmpty)

def Pipeline.commands (p : Pipeline) : List Command := p.first :: p.more.map Prod.snd

/-- All commands of a pipeline run in children, or all of them in the shell. -/
def Pipeline.Plain (p : Pipeline) : Prop :=
  (∀ c ∈ p.commands, c.forked = true) ∨ ∀ c ∈ p.commands, c.inShell = true

instance (p : Pipeline) : Decidable p.Plain := inferInstanceAs (Decidable (_ ∨ _))

/-- A command read, and the one that was written. -/
def Cmd.Reads (c : Cmd) (d : Command) : Prop := c.name = d.word.text ∧ c.nargs = d.args.length + 1

theorem Cmd.Reads.more {c : Cmd} {d : Command} (h : c.Reads d) : decide (1 < c.nargs) = !d.args.isEmpty := by
  rw [h.2]
  cases d.args with
  | nil => rfl
  | cons w l => simp

theorem Cmd.Reads.forked {c : Cmd} {d : Command} (h : c.Reads d) : c.forked = d.forked := by
  unfold Cmd.forked Command.forked isSubshellBuiltin Cmd.is
  rw [h.1, h.more, Bool.eq_iff_iff]
  simp only [Bool.and_eq_true, Bool.not_eq_true', Bool.or_eq_false_iff, decide_eq_false_iff_not]
  tauto

/-- `cd` and the like are run in the shell, which goes on. -/
theorem Cmd.Reads.inShell {c : Cmd} {d : Command} (h : c.Reads d) (hd : d.inShell = true) :
    c.forked = false ∧ c.stops = false := by
  unfold Command.inShell at hd
  unfold Cmd.forked Cmd.stops isSubshellBuiltin Cmd.is
  rw [h.1, h.more]
  simp only [Bool.or_eq_true, Bool.and_eq_true, decide_eq_true_eq] at hd
  rcases hd with (hd | hd) | ⟨hd, hargs⟩
  · rw [hd]
    exact ⟨rfl, rfl⟩
  · rw [hd]
    exact ⟨rfl, rfl⟩
  · rw [hd, hargs]
    exact ⟨rfl, rfl⟩

/-- What the first command writes the second reads, both in children. -/
def Record.Feeds (r r' : Record) : Prop :=
  ∃ ch ch' k, r.child = some ch ∧ r'.child = some ch' ∧ r.made = some k ∧ ch.stdout = some (.writeEnd k) ∧
    ch'.stdin = some (.readEnd k)

/-- What the shell has run between `σ` and `σ'`: the commands that are to, and no others,
ran in children; those behind a connector read what the one in front writes; each pipe was
created for one command, and both its ends are closed; the descriptors are the same. -/
structure Ran (σ σ' : Ush) (rs : List Record) : Prop where
  child : ∀ r ∈ rs, r.child.isSome = r.cmd.forked
  fed : rs.IsChain fun r r' => r'.cmd.inp.pipeToken = true → r'.cmd.forked = true → r.Feeds r'
  le : σ.files.pipes ≤ σ'.files.pipes
  made : rs.filterMap Record.made = List.range' σ.files.pipes (σ'.files.pipes - σ.files.pipes)
  table : ∀ fd, σ'.files.table.lookup fd = σ.files.table.lookup fd
  closed : ∃ ends, σ'.closed = σ.closed ++ ends ∧ ∀ k,
    ends.count (.readEnd k) = (if σ.files.pipes ≤ k ∧ k < σ'.files.pipes then 1 else 0) ∧
    ends.count (.writeEnd k) = if σ.files.pipes ≤ k ∧ k < σ'.files.pipes then 1 else 0

/-- The numbers from `a` to `b` and from there to `c`. -/
theorem range_split {a b c : ℕ} (h : a ≤ b) (h' : b ≤ c) :
    List.range' a (b - a) ++ List.range' b (c - b) = List.range' a (c - a) := by
  have hb : b = a + (b - a) := by omega
  calc List.range' a (b - a) ++ List.range' b (c - b)
      = List.range' a (b - a) ++ List.range' (a + (b - a)) (c - b) := by rw [← hb]
    _ = List.range' a (b - a + (c - b)) := List.range'_append_1
    _ = List.range' a (c - a) := by
      congr 1
      omega

/-- Nothing is run. -/
theorem Ran.nil {σ σ' : Ush} (hfiles : σ'.files = σ.files) (hclosed : σ'.closed = σ.closed) : Ran σ σ' [] := by
  refine ⟨by simp, List.isChain_nil, by rw [hfiles], by simp [hfiles], by simp [hfiles], [], by simp [hclosed], ?_⟩
  intro k
  rw [hfiles, if_neg (by omega)]
  exact ⟨rfl, rfl⟩

/-- **One thing after another**, if the second does not begin behind a connector. -/
theorem Ran.append {σ σ₁ σ₂ : Ush} {rs rs' : List Record} (h : Ran σ σ₁ rs) (h' : Ran σ₁ σ₂ rs')
    (hhead : ∀ r, rs'.head? = some r → r.cmd.inp.pipeToken = false) : Ran σ σ₂ (rs ++ rs') := by
  have hle := h.le
  have hle' := h'.le
  obtain ⟨ends, hends, hcount⟩ := h.closed
  obtain ⟨ends', hends', hcount'⟩ := h'.closed
  refine ⟨?_, ?_, hle.trans hle', ?_, ?_, ends ++ ends', ?_, ?_⟩
  · intro r hr
    exact (List.mem_append.mp hr).elim (h.child r) (h'.child r)
  · refine List.isChain_append.mpr ⟨h.fed, h'.fed, ?_⟩
    intro r _ r' hr' hpipe
    rw [hhead r' hr'] at hpipe
    exact absurd hpipe (by simp)
  · rw [List.filterMap_append, h.made, h'.made, range_split hle hle']
  · intro fd
    rw [h'.table, h.table]
  · rw [hends', hends, List.append_assoc]
  · intro k
    rw [List.count_append, List.count_append, (hcount k).1, (hcount k).2, (hcount' k).1, (hcount' k).2]
    split_ifs <;> omega

/-- Commands that run in the shell touch no descriptor. -/
theorem Ran.inShell {σ σ' : Ush} {cmds : List Cmd} (h : ∀ c ∈ cmds, c.forked = false ∧ c.stops = false)
    (hfiles : σ'.files = σ.files) (hclosed : σ'.closed = σ.closed) :
    Ran σ σ' (cmds.map fun c => ⟨c, none, none⟩) := by
  have hnil : Ran σ σ' [] := .nil hfiles hclosed
  refine ⟨?_, ?_, hnil.le, ?_, hnil.table, hnil.closed⟩
  · intro r hr
    obtain ⟨c, hc, rfl⟩ := List.mem_map.mp hr
    exact (h c hc).1.symm
  · rw [List.isChain_iff_forall_rel_of_append_cons_cons]
    intro r r' l₁ l₂ heq _ hf
    have hmem : r' ∈ cmds.map fun c => (⟨c, none, none⟩ : Record) := by simp [heq]
    obtain ⟨c, hc, rfl⟩ := List.mem_map.mp hmem
    exact absurd hf (by simp [(h c hc).1])
  · rw [← hnil.made]
    simp

section Evaluate

variable {K : Kernel} {p : Pipeline} {q : Pipe}

/-- Forked commands that are joined feed each other. -/
theorem AllWired.fed {base : Table} : ∀ {rs : List Record} {prev : Option ℕ} {n : ℕ}, AllWired base prev n rs →
    (rs.map Record.cmd).IsChain Joined → rs.IsChain Record.Feeds
  | [], _, _, _, _ => List.isChain_nil
  | [r], _, _, _, _ => List.isChain_singleton r
  | r :: r' :: rs, _, n, ⟨⟨ch, hw⟩, hall⟩, hj => by
    rw [List.map_cons, List.map_cons, List.isChain_cons_cons] at hj
    refine List.isChain_cons_cons.mpr ⟨?_, hall.fed hj.2⟩
    have hmade : r.made = some n := by rw [hw.made, hj.1.2, if_pos rfl]
    obtain ⟨⟨ch', hw'⟩, -⟩ := hall
    exact ⟨ch, ch', n, hw.child, hw'.child, hmade, hw.stdout n hmade, hw'.stdin n hmade⟩

end Evaluate

/-! ### The whole session -/

end Shell
end Csc501

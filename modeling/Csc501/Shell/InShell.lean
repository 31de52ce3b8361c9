/-
# Pipelines with a command that runs in the shell

`cd`, `unsetenv` and `setenv` with arguments run in the shell itself, and
`evaluate_command` returns from them before it comes to the pipes. Such a command
reads nothing and opens nothing, but in a pipeline its neighbours suffer: for a
command in front of it the pipe is created and its read end never closed, and a
child behind it takes its input from the slot of `pipefd` as it happens to be, the
descriptor 0 or what an earlier pipeline left there, and the shell then closes it.

A child is to read from the pipe of the command in front of it, and the shell is
to have no more descriptors open than before (`Fed`). That it reads from nothing
at all, the descriptor 0 being closed, does not count as an empty input. This holds just if no child
stands behind a command that runs in the shell, and there are no children at all
or the shell ends with the pipeline (`Apart`).

Key definitions: `Cmd.inShell`, `Cmd.stops`, `reached`, `Fed`, `Apart`, `session`.
Key theorems: `evaluateCmds_append`, `fed_of_apart`, `apart_of_fed`, `session_fed_iff`.
-/
import Csc501.Shell.Wiring

namespace Csc501
namespace Shell

open Lib

/-! ### The commands that are evaluated -/

/-- The evaluation does not go on behind the command: it ends the shell, or is a
`nice` that runs a command. -/
def Cmd.stops (c : Cmd) : Bool :=
  if c.is "nice" then !decide (c.args[2]? = some .null) else c.is "end" || c.is "logout"

/-- `cd`, `unsetenv`, or `setenv` with arguments. -/
def Cmd.inShell (c : Cmd) : Bool := c.is "cd" || c.is "unsetenv" || (c.is "setenv" && decide (1 < c.nargs))

/-- The commands that are evaluated. -/
def reached : List Cmd → List Cmd
  | [] => []
  | c :: l => if c.stops then [c] else c :: reached l

/-- What a pipeline is to do, evaluated from `σ`: each child behind a connector
reads from the pipe created for the command in front of it, and in the end the
shell has no more descriptors open than before. -/
structure Fed (K : Kernel) (p : Pipe) (σ : Ush) : Prop where
  stdin : ∀ i r r' ch, (evaluatePipe K p σ).1[i]? = some r → (evaluatePipe K p σ).1[i + 1]? = some r' →
    r'.cmd.inp.pipeToken = true → r'.child = some ch → ∃ k, r.made = some k ∧ ch.stdin = some (.readEnd k)
  open_le : ∀ σ', (evaluatePipe K p σ).2 = .running σ' → σ'.files.table.keys.length ≤ σ.files.table.keys.length

/-- No child stands behind a command that runs in the shell, and there is none or
the shell ends. -/
structure Apart (p : Pipe) : Prop where
  behind : (reached p.cmds).IsChain fun c d => d.forked = true → c.forked = true
  left : (∀ c ∈ reached p.cmds, c.forked = false) ∨ (∃ c ∈ reached p.cmds, c.stops = true) ∨ p.atEnd = true

/-- The pipelines of a session that are evaluated, with the shell in front of each. -/
def session (K : Kernel) : List Pipe → Ush → List (Pipe × Ush)
  | [], _ => []
  | p :: ps, σ =>
    (p, σ) ::
      match (evaluatePipe K p σ).2 with
      | .running σ' => session K ps σ'
      | _ => []

/-! ### One command -/

theorem Cmd.forked_of_stops {c : Cmd} (h : c.stops = true) : c.forked = false := by
  unfold Cmd.stops at h
  unfold Cmd.forked isSubshellBuiltin
  split_ifs at h with hn
  · simp [hn]
  · rcases Bool.or_eq_true_iff.mp h with h | h
    · simp [h]
    · simp [h]

theorem Cmd.stops_of_forked {c : Cmd} (h : c.forked = true) : c.stops = false := by
  by_contra hs
  exact absurd (Cmd.forked_of_stops (Bool.eq_true_of_not_eq_false hs)) (by simp [h])

theorem Cmd.forked_of_inShell {c : Cmd} (h : c.inShell = true) : c.forked = false := by
  unfold Cmd.inShell at h
  unfold Cmd.forked isSubshellBuiltin
  simp only [Bool.or_eq_true] at h
  rcases h with (h | h) | h
  · simp [h]
  · simp [h]
  · simp [h]

section Evaluate

variable {K : Kernel} {c : Cmd}

/-- A command that runs in the shell leaves it as it is. -/
theorem evaluateCommand_inShell (σ : Ush) (hc : c.WellFormed) (hf : c.forked = false) (hs : c.stops = false) :
    evaluateCommand K c σ = (⟨c, none, none⟩, .running σ) := by
  unfold Cmd.stops at hs
  unfold Cmd.forked at hf
  unfold evaluateCommand
  cases hn : c.is "nice" with
  | true =>
    rw [hn, if_pos rfl] at hs
    simp [show c.args[2]? = some .null by simpa using hs]
  | false =>
    rw [hn, if_neg (by simp)] at hs
    obtain ⟨he, hl⟩ : c.is "end" = false ∧ c.is "logout" = false := by simpa using hs
    simp only [hn, he, Bool.not_false, Bool.and_self, Bool.true_and] at hf
    simp [hc.printable, he, hl, hf]

/-- A command the evaluation stops at. -/
theorem evaluateCommand_stops (σ : Ush) (hc : c.WellFormed) (hs : c.stops = true) :
    evaluateCommand K c σ = (⟨c, none, none⟩, .exited) ∨ evaluateCommand K c σ = (⟨c, none, none⟩, .undefined) := by
  unfold Cmd.stops at hs
  unfold evaluateCommand
  cases hn : c.is "nice" with
  | true =>
    rw [hn, if_pos rfl] at hs
    exact .inr (by simp [show c.args[2]? ≠ some .null by simpa using hs])
  | false =>
    rw [hn, if_neg (by simp)] at hs
    refine .inl ?_
    cases he : c.is "end" with
    | true => simp [hc.printable]
    | false =>
      have hl : c.is "logout" = true := by simpa [he] using hs
      simp [hc.printable, hl, isSubshellBuiltin]

/-! ### All commands -/

/-- The evaluation goes on behind commands it does not stop at. -/
theorem evaluateCmds_append (l : List Cmd) : ∀ {fs : List Cmd} {σ σ' : Ush} {rs : List Record},
    evaluateCmds K fs σ = (rs, .running σ') →
    evaluateCmds K (fs ++ l) σ = (rs ++ (evaluateCmds K l σ').1, (evaluateCmds K l σ').2)
  | [], σ, σ', rs, h => by
    cases h
    rfl
  | c :: fs, σ, σ', rs, h => by
    obtain ⟨r, x, hx⟩ : ∃ r x, evaluateCommand K c σ = (r, x) := ⟨_, _, rfl⟩
    cases x with
    | running σ₁ =>
      rw [evaluateCmds_running fs hx, Prod.mk.injEq] at h
      have hfs : evaluateCmds K fs σ₁ = ((evaluateCmds K fs σ₁).1, .running σ') := Prod.ext rfl h.2
      rw [List.cons_append, evaluateCmds_running _ hx, evaluateCmds_append l hfs, ← h.1]
      rfl
    | exited => exact absurd ((evaluateCmds_exited fs hx).symm.trans h) (by simp)
    | undefined => exact absurd ((evaluateCmds_undefined fs hx).symm.trans h) (by simp)

theorem reached_append {fs : List Cmd} (h : ∀ c ∈ fs, c.forked = true) (l : List Cmd) :
    reached (fs ++ l) = fs ++ reached l := by
  induction fs with
  | nil => rfl
  | cons c fs ih =>
    rw [List.cons_append, reached, Cmd.stops_of_forked (h c List.mem_cons_self), if_neg (by simp), ih fun d hd => h d (List.mem_cons_of_mem _ hd)]
    rfl

theorem prefix_reached : ∀ l : List Cmd, reached l <+: l
  | [] => List.prefix_rfl
  | c :: l => by
    rw [reached]
    split_ifs
    · exact List.prefix_append [c] l
    · exact (List.prefix_cons_inj c).mpr (prefix_reached l)

theorem head?_reached (l : List Cmd) : (reached l).head? = l.head? := by
  cases l with
  | nil => rfl
  | cons c l =>
    rw [reached]
    split_ifs
    · rfl
    · rfl

/-- From a command in the shell on there are no children. -/
theorem inShell_of_isChain : ∀ {l : List Cmd}, (l.IsChain fun c d => d.forked = true → c.forked = true) →
    (∀ c, l.head? = some c → c.forked = false) → ∀ c ∈ l, c.forked = false
  | [], _, _, _, hc => absurd hc List.not_mem_nil
  | x :: l, h, hhead, c, hc => by
    have hx := hhead x rfl
    rcases List.mem_cons.mp hc with rfl | hc
    · exact hx
    · have htail : l.IsChain fun c d => d.forked = true → c.forked = true := h.tail
      apply inShell_of_isChain htail _ c hc
      intro d hd
      obtain ⟨l', rfl⟩ := List.head?_eq_some_iff.mp hd
      by_contra hdf
      exact absurd ((List.isChain_cons_cons.mp h).1 (Bool.eq_true_of_not_eq_false hdf)) (by simp [hx])

/-- A command has a child just if it is forked, and a pipe only then. -/
def Record.Honest (r : Record) : Prop :=
  r.child.isSome = r.cmd.forked ∧ (r.cmd.forked = false → r.made = none)

/-- The records of an evaluation are those of the commands that are evaluated. -/
theorem evaluateCmds_records : ∀ {l : List Cmd} (σ : Ush), (∀ c ∈ l, c.WellFormed) →
    (evaluateCmds K l σ).1.map Record.cmd = reached l ∧ ∀ r ∈ (evaluateCmds K l σ).1, r.Honest
  | [], _, _ => ⟨rfl, by simp [evaluateCmds]⟩
  | c :: l, σ, hwf => by
    have hc := hwf c List.mem_cons_self
    have ih := fun σ' => evaluateCmds_records σ' fun d hd => hwf d (List.mem_cons_of_mem c hd)
    cases hf : c.forked with
    | true =>
      have hrun : evaluateCommand K c σ = forkCommand K c σ := evaluateCommand_of_forked hf hc
      rw [reached, Cmd.stops_of_forked hf, if_neg (by simp), evaluateCmds_running l hrun]
      refine ⟨?_, ?_⟩
      · rw [List.map_cons, (ih _).1]
      · intro r hr
        rcases List.mem_cons.mp hr with rfl | hr
        · exact ⟨hf.symm, fun h => absurd (hf.symm.trans h) (by simp)⟩
        · exact (ih _).2 r hr
    | false =>
      have hhere : Record.Honest ⟨c, none, none⟩ := ⟨hf.symm, fun _ => rfl⟩
      cases hs : c.stops with
      | true =>
        rw [reached, hs, if_pos rfl]
        rcases evaluateCommand_stops (K := K) σ hc hs with hx | hx
        · rw [evaluateCmds_exited l hx]
          exact ⟨rfl, by simpa using hhere⟩
        · rw [evaluateCmds_undefined l hx]
          exact ⟨rfl, by simpa using hhere⟩
      | false =>
        rw [reached, hs, if_neg (by simp), evaluateCmds_running l (evaluateCommand_inShell σ hc hf hs)]
        refine ⟨?_, ?_⟩
        · rw [List.map_cons, (ih _).1]
        · intro r hr
          rcases List.mem_cons.mp hr with rfl | hr
          · exact hhere
          · exact (ih _).2 r hr

/-- Commands that all run in the shell: unless the evaluation stops, the shell is
left as it is. -/
theorem evaluateCmds_inShell : ∀ {l : List Cmd} (σ : Ush), (∀ c ∈ l, c.WellFormed) →
    (∀ c ∈ reached l, c.forked = false) →
    (∃ c ∈ reached l, c.stops = true) ∧ (∀ σ', (evaluateCmds K l σ).2 ≠ .running σ') ∨
      (∀ c ∈ reached l, c.stops = false) ∧ (evaluateCmds K l σ).2 = .running σ
  | [], _, _, _ => .inr ⟨by simp [reached], rfl⟩
  | c :: l, σ, hwf, hf => by
    have hc := hwf c List.mem_cons_self
    cases hs : c.stops with
    | true =>
      refine .inl ⟨⟨c, by simp [reached, hs], hs⟩, ?_⟩
      intro σ'
      rcases evaluateCommand_stops (K := K) σ hc hs with hx | hx
      · rw [evaluateCmds_exited l hx]
        simp
      · rw [evaluateCmds_undefined l hx]
        simp
    | false =>
      have hreach : reached (c :: l) = c :: reached l := by rw [reached, hs, if_neg (by simp)]
      rw [hreach] at hf ⊢
      rw [evaluateCmds_running l (evaluateCommand_inShell σ hc (hf c List.mem_cons_self) hs)]
      rcases evaluateCmds_inShell σ (fun d hd => hwf d (List.mem_cons_of_mem _ hd))
        (fun d hd => hf d (List.mem_cons_of_mem _ hd)) with ⟨⟨d, hd, hds⟩, hx⟩ | ⟨hno, hx⟩
      · exact .inl ⟨⟨d, List.mem_cons_of_mem _ hd, hds⟩, hx⟩
      · exact .inr ⟨List.forall_mem_cons.mpr ⟨hs, hno⟩, hx⟩

end Evaluate

/-! ### A pipeline -/

theorem evaluatePipe_fst {K : Kernel} {p : Pipe} {σ : Ush} :
    (evaluatePipe K p σ).1 = (evaluateCmds K p.cmds { σ with pipeIndex := false }).1 := by
  unfold evaluatePipe
  split
  · rename_i h
    rw [h]
  · rfl

theorem evaluatePipe_running {K : Kernel} {p : Pipe} {σ σ' : Ush} :
    (evaluatePipe K p σ).2 = .running σ' ↔
      p.atEnd = false ∧ (evaluateCmds K p.cmds { σ with pipeIndex := false }).2 = .running σ' := by
  unfold evaluatePipe
  split
  · rename_i rs σ₁ h
    rw [h]
    cases p.atEnd with
    | false => simp
    | true => simp
  · rename_i h
    refine ⟨?_, ?_⟩
    · intro hx
      exact (h _ σ' (Prod.ext rfl hx)).elim
    · intro hx
      exact (h _ σ' (Prod.ext rfl hx.2)).elim

/-- A pipeline, in two parts: the children it begins with, whose pipes are wired,
and the rest, which begins in the shell. -/
structure Split (K : Kernel) (p : Pipe) (σ : Ush) (fs rest : List Cmd) (rs : List Record) (σ₁ : Ush) : Prop where
  cmds : p.cmds = fs ++ rest
  forked : ∀ c ∈ fs, c.forked = true
  head : ∀ c, rest.head? = some c → c.forked = false
  run : evaluateCmds K fs { σ with pipeIndex := false } = (rs, .running σ₁)
  records : rs.map Record.cmd = fs
  wired : AllWired σ.files.table none σ.files.pipes rs
  opened : Open σ.files.table (lastMade none rs) σ₁

theorem exists_split {K : Kernel} (hK : K.Fresh) {p : Pipe} (hwf : p.WellFormed) (σ : Ush) :
    ∃ fs rest rs σ₁, Split K p σ fs rest rs σ₁ := by
  have hcmds : p.cmds = p.cmds.takeWhile Cmd.forked ++ p.cmds.dropWhile Cmd.forked :=
    List.takeWhile_append_dropWhile.symm
  have hfs : ∀ c ∈ p.cmds.takeWhile Cmd.forked, c.forked = true := fun c hc => List.mem_takeWhile_imp hc
  have hjoined : (p.cmds.takeWhile Cmd.forked).IsChain Joined := hwf.joined.infix (List.takeWhile_prefix _).isInfix
  have hhead : ∀ c, (p.cmds.takeWhile Cmd.forked).head? = some c → c.inp.pipeToken = false := by
    intro c hc
    rw [List.head?_takeWhile, Option.filter_eq_some_iff] at hc
    exact hwf.head c hc.1
  obtain ⟨rs, σ₁, ends, hrs, hrec, hall, hopen, -, -⟩ := evaluateCmds_wired hK (Open.start { σ with pipeIndex := false })
    hjoined (fun c hc => hwf.cmds c (List.takeWhile_subset _ hc)) hfs hhead
  refine ⟨_, _, rs, σ₁, hcmds, hfs, ?_, hrs, hrec, hall, hopen⟩
  intro c hc
  have hnot := List.head?_dropWhile_not Cmd.forked p.cmds
  rw [hc] at hnot
  simpa using hnot

section Parts

variable {K : Kernel} {p : Pipe} {σ σ₁ : Ush} {fs rest : List Cmd} {rs : List Record}

theorem Split.evaluate (h : Split K p σ fs rest rs σ₁) :
    evaluateCmds K p.cmds { σ with pipeIndex := false } = (rs ++ (evaluateCmds K rest σ₁).1, (evaluateCmds K rest σ₁).2) := by
  rw [h.cmds]
  exact evaluateCmds_append rest h.run

theorem Split.reached (h : Split K p σ fs rest rs σ₁) : reached p.cmds = fs ++ reached rest := by
  rw [h.cmds]
  exact reached_append h.forked rest

/-- If no child stands behind a command that runs in the shell, all children are in
the first part. -/
theorem Split.rest_inShell (h : Split K p σ fs rest rs σ₁)
    (hb : (Shell.reached p.cmds).IsChain fun c d => d.forked = true → c.forked = true) :
    ∀ c ∈ Shell.reached rest, c.forked = false := by
  rw [h.reached] at hb
  apply inShell_of_isChain hb.right_of_append
  intro c hc
  rw [head?_reached] at hc
  exact h.head c hc

theorem Split.wf_rest (h : Split K p σ fs rest rs σ₁) (hwf : p.WellFormed) : ∀ c ∈ rest, c.WellFormed := by
  intro c hc
  apply hwf.cmds
  rw [h.cmds]
  exact List.mem_append_right _ hc

/-- With nothing in front the descriptors are those from before. -/
theorem Split.table_nil (h : Split K p σ [] rest rs σ₁) : σ₁ = { σ with pipeIndex := false } := by
  have hrun := h.run
  cases hrun
  rfl

/-- Behind children that are followed by another command, a read end is open. -/
theorem Split.open_lt (h : Split K p σ fs rest rs σ₁) (hwf : p.WellFormed) (hfs : fs ≠ []) (hrest : rest ≠ []) :
    σ.files.table.keys.length < σ₁.files.table.keys.length := by
  obtain ⟨c, hc⟩ := Option.isSome_iff_exists.mp (List.getLast?_isSome.mpr hfs)
  obtain ⟨d, l, rfl⟩ := List.exists_cons_of_ne_nil hrest
  have hj := hwf.joined
  rw [h.cmds, List.isChain_append] at hj
  have hpipe : c.out.pipeToken = true := (hj.2.2 c hc d rfl).2
  have hlast := h.wired.lastMade_isSome (h.records.symm ▸ hc)
  rw [hpipe] at hlast
  obtain ⟨k, hk⟩ := Option.isSome_iff_exists.mp hlast
  have hopen := h.opened
  rw [hk] at hopen
  have hfree : (σ₁.pipefd σ₁.pipeIndex).1 ∉ σ.files.table.keys := by
    rw [← AList.mem_keys, ← AList.lookup_eq_none]
    exact hopen.free k rfl
  calc σ.files.table.keys.length < σ.files.table.keys.length + 1 := Nat.lt_succ_self _
    _ = (withRead σ.files.table (σ₁.pipefd σ₁.pipeIndex).1 (some k)).keys.length := by
        rw [withRead, AList.keys_insert, List.erase_of_not_mem hfree, List.length_cons]
    _ = σ₁.files.table.keys.length := (length_keys_congr hopen.table).symm

/-- A pipeline that goes on has children only if there is a stop in it. -/
theorem Split.fs_eq_nil (h : Split K p σ fs rest rs σ₁) (hf : ∀ c ∈ Shell.reached p.cmds, c.forked = false) : fs = [] := by
  by_contra hne
  obtain ⟨c, l, rfl⟩ := List.exists_cons_of_ne_nil hne
  have hfalse := hf c (by rw [h.reached]; simp)
  exact absurd ((h.forked c List.mem_cons_self).symm.trans hfalse) (by simp)

end Parts

theorem mem_of_mem_session {K : Kernel} : ∀ {ps : List Pipe} {σ : Ush} {x : Pipe × Ush}, x ∈ session K ps σ → x.1 ∈ ps
  | [], _, _, h => absurd h List.not_mem_nil
  | p :: ps, σ, x, h => by
    rcases List.mem_cons.mp h with rfl | h
    · exact List.mem_cons_self
    · apply List.mem_cons_of_mem
      cases hx : (evaluatePipe K p σ).2 with
      | running σ' =>
        rw [hx] at h
        exact mem_of_mem_session h
      | exited =>
        rw [hx] at h
        exact absurd h List.not_mem_nil
      | undefined =>
        rw [hx] at h
        exact absurd h List.not_mem_nil

/-- **A pipeline does what it is to do**, if its children stand apart. -/
theorem fed_of_apart {K : Kernel} (hK : K.Fresh) {p : Pipe} (hwf : p.WellFormed) (σ : Ush) (h : Apart p) : Fed K p σ := by
  obtain ⟨fs, rest, rs, σ₁, hs⟩ := exists_split hK hwf σ
  have hrest := hs.rest_inShell h.behind
  refine ⟨?_, ?_⟩
  · intro i r r' ch hr hr' _ hch
    rw [evaluatePipe_fst, hs.evaluate] at hr hr'
    by_cases hi : i + 1 < rs.length
    · rw [List.getElem?_append_left (by omega)] at hr
      rw [List.getElem?_append_left hi] at hr'
      have hjoined : (rs.map Record.cmd).IsChain Joined := by
        rw [hs.records]
        have hj := hwf.joined
        rw [hs.cmds] at hj
        exact hj.left_of_append
      obtain ⟨ch₁, ch', prev, -, hw', hmade⟩ := hs.wired.pair hjoined hr hr'
      cases hw'.child.symm.trans hch
      exact ⟨_, hmade, hw'.stdin _ hmade⟩
    · -- behind the children nobody has one
      rw [List.getElem?_append_right (by omega)] at hr'
      obtain ⟨hcmds, hhonest⟩ := evaluateCmds_records (K := K) σ₁ (hs.wf_rest hwf)
      have hmem := List.mem_of_getElem? hr'
      have hforked := hrest r'.cmd (hcmds ▸ List.mem_map_of_mem hmem)
      have hsome := (hhonest r' hmem).1
      rw [hch, hforked] at hsome
      exact absurd hsome (by simp)
  · intro σ' hrun
    obtain ⟨hend, hrun⟩ := evaluatePipe_running.mp hrun
    rw [hs.evaluate] at hrun
    rcases evaluateCmds_inShell (K := K) σ₁ (hs.wf_rest hwf) hrest with ⟨-, hno⟩ | ⟨hgo, hsame⟩
    · exact absurd hrun (hno σ')
    · have hnil : fs = [] := by
        rcases h.left with hnone | ⟨c, hc, hstop⟩ | hat
        · exact hs.fs_eq_nil hnone
        · rw [hs.reached] at hc
          rcases List.mem_append.mp hc with hc | hc
          · exact absurd (Cmd.forked_of_stops hstop) (by simp [hs.forked c hc])
          · exact absurd (hgo c hc) (by simp [hstop])
        · exact absurd hat (by simp [hend])
      subst hnil
      cases hsame.symm.trans hrun
      rw [hs.table_nil]

/-- A pipeline with a command in the shell whose children do not stand apart
fails: one of them has no pipe in front of it, or a read end is left. -/
theorem apart_of_fed {K : Kernel} (hK : K.Fresh) {p : Pipe} (hwf : p.WellFormed) (σ : Ush)
    (hin : ∃ c ∈ reached p.cmds, c.inShell = true) (h : Fed K p σ) : Apart p := by
  obtain ⟨fs, rest, rs, σ₁, hs⟩ := exists_split hK hwf σ
  obtain ⟨hcmds, hhonest⟩ := evaluateCmds_records (K := K) { σ with pipeIndex := false } hwf.cmds
  rw [← evaluatePipe_fst] at hcmds hhonest
  have hbehind : (reached p.cmds).IsChain fun c d => d.forked = true → c.forked = true := by
    have hjoined : ((evaluatePipe K p σ).1.map Record.cmd).IsChain Joined := by
      rw [hcmds]
      exact hwf.joined.infix (prefix_reached p.cmds).isInfix
    rw [← hcmds, List.isChain_map, List.isChain_iff_getElem]
    rw [List.isChain_map, List.isChain_iff_getElem] at hjoined
    intro i hi hd
    by_contra hc
    obtain ⟨heq, hpipe⟩ := hjoined i hi
    have hchild := (hhonest _ (List.getElem_mem hi)).1
    rw [hd] at hchild
    obtain ⟨ch, hch⟩ := Option.isSome_iff_exists.mp hchild
    obtain ⟨k, hk, -⟩ := h.stdin i _ _ ch (List.getElem?_eq_getElem (by omega)) (List.getElem?_eq_getElem hi)
      (heq ▸ hpipe) hch
    have hnone := (hhonest _ (List.getElem_mem (by omega))).2 (Bool.eq_false_iff.mpr hc)
    exact absurd (hnone.symm.trans hk) (by simp)
  refine ⟨hbehind, ?_⟩
  have hrest := hs.rest_inShell hbehind
  by_contra hleft
  -- children, then commands in the shell, and the shell goes on
  rw [hs.reached] at hleft hin
  have hfs : fs ≠ [] := by
    rintro rfl
    exact hleft (.inl hrest)
  have hne : rest ≠ [] := by
    rintro rfl
    obtain ⟨c, hc, hsh⟩ := hin
    have hc : c ∈ fs := by simpa [reached] using hc
    exact absurd (Cmd.forked_of_inShell hsh) (by simp [hs.forked c hc])
  have hlt := hs.open_lt hwf hfs hne
  rcases evaluateCmds_inShell (K := K) σ₁ (hs.wf_rest hwf) hrest with ⟨⟨c, hc, hstop⟩, -⟩ | ⟨-, hsame⟩
  · exact hleft (.inr (.inl ⟨c, List.mem_append_right _ hc, hstop⟩))
  · have hend : p.atEnd = false := by
      by_contra hend
      exact hleft (.inr (.inr (Bool.eq_true_of_not_eq_false hend)))
    have hle := h.open_le σ₁ (evaluatePipe_running.mpr ⟨hend, by rw [hs.evaluate]; exact hsame⟩)
    omega

/-- **A session in which some commands run in the shell.** In every session, from
any state of the shell, each pipeline with such a command that is evaluated does
what it is to do if and only if in each of them the children stand apart. -/
theorem session_fed_iff {K : Kernel} (hK : K.Fresh) {ps : List Pipe} (hps : ∀ p ∈ ps, Parsed p) (σ : Ush) :
    (∀ x ∈ session K ps σ, (∃ c ∈ reached x.1.cmds, c.inShell = true) → Fed K x.1 x.2) ↔
      ∀ x ∈ session K ps σ, (∃ c ∈ reached x.1.cmds, c.inShell = true) → Apart x.1 := by
  have hparsed : ∀ x ∈ session K ps σ, x.1.WellFormed := by
    intro x hx
    exact (hps x.1 (mem_of_mem_session hx)).wellFormed
  refine ⟨?_, ?_⟩
  · intro h x hx hin
    exact apart_of_fed hK (hparsed x hx) x.2 hin (h x hx hin)
  · intro h x hx hin
    exact fed_of_apart hK (hparsed x hx) x.2 (h x hx hin)

/-- `cd x`. -/
def cdAlone : Pipe where
  type := .pout
  cmds := [⟨.tsemi, .tnil, .tnil, none, none, 2, 4, [.word ['c', 'd'], .word ['x'], .null, .unset]⟩]
  atEnd := false

/-- `cd x | cat`. -/
def cdThenCat : Pipe where
  type := .pout
  cmds :=
    [⟨.tsemi, .tnil, .tpipe, none, none, 2, 4, [.word ['c', 'd'], .word ['x'], .null, .unset]⟩,
      ⟨.tsemi, .tpipe, .tnil, none, none, 1, 4, [.word ['c', 'a', 't'], .null, .unset, .unset]⟩]
  atEnd := false

/-- A session with a `cd` that stands alone. -/
theorem session_fed_cdAlone : lowest.Fresh ∧ (∀ p ∈ [cdAlone, threeCommands], Parsed p) ∧
    ∀ x ∈ session lowest [cdAlone, threeCommands] .start,
      (∃ c ∈ reached x.1.cmds, c.inShell = true) → Fed lowest x.1 x.2 := by
  have hps : ∀ p ∈ [cdAlone, threeCommands], Parsed p := by
    intro p hp
    exact ⟨.init "cd x; a | b |& c\n".toList, [cdAlone, threeCommands], ⟨.tnl, [], [], []⟩, by decide +kernel, hp⟩
  refine ⟨lowest_fresh, hps, (session_fed_iff lowest_fresh hps .start).mpr ?_⟩
  intro x hx hin
  have hmem := mem_of_mem_session hx
  rcases List.mem_cons.mp hmem with h | hmem
  · rw [h]
    exact ⟨by decide, .inl (by decide)⟩
  · rw [List.mem_singleton.mp hmem] at hin
    exact absurd hin (by decide)

/-- **`cd x | cat` lets `cat` read the input of the shell**, which the shell then
closes. -/
theorem cat_reads_shell : Parsed cdThenCat ∧
    ¬ (∀ x ∈ session lowest [cdThenCat] .start, (∃ c ∈ reached x.1.cmds, c.inShell = true) → Fed lowest x.1 x.2) ∧
    (evaluatePipe lowest cdThenCat .start).1.map (fun r => r.child.map Child.stdin) = [none, some (some (.std 0))] ∧
    ∃ σ', (evaluatePipe lowest cdThenCat .start).2 = .running σ' ∧ σ'.closed = [.std 0] := by
  have hp : Parsed cdThenCat :=
    ⟨.init "cd x | cat\n".toList, [cdThenCat], ⟨.tnl, [], [], []⟩, by decide +kernel, List.mem_cons_self⟩
  refine ⟨hp, ?_, by decide +kernel, _, rfl, by decide +kernel⟩
  intro h
  have hfed : Fed lowest cdThenCat .start := h (cdThenCat, .start) List.mem_cons_self (by decide)
  have hbehind := (apart_of_fed lowest_fresh hp.wellFormed .start (by decide) hfed).behind
  exact absurd hbehind (by decide)

end Shell
end Csc501

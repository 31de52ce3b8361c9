/-
# The command that `nice` runs

`_nice` and `make_command_from_args` of `hw2/main.c`. The arguments from the third
on are copied to a new command, which is passed to `evaluate_command`. The copy
has the fields of the command but its files, and its arguments, but nothing behind
them: `infile`, `outfile` and the `NULL` that ends `args` are never stored, so
whatever the command, it is not the one that was to be run.

The memory of the copy is that of a pointer (`malloc(sizeof(Cmd))`), and that of
an argument has no room for the final NUL. Here the stores beyond it go through,
as if there were room; the copy is not right even then.

Key definitions: `Copied`, `copyArgs`, `makeCommandFromArgs`, `nice`, `Keeps`.
Key theorems: `copyArgs_ok`, `nice_never`.
-/
import Csc501.Lib.CMem
import Csc501.Shell.Exec

namespace Csc501
namespace Shell

open Lib

/-! ### The copy -/

/-- `struct cmd_t`, less its `next`, as `make_command_from_args` leaves it: a file
that is not stored is `none`. -/
structure Copied where
  exec : Token
  inp : Token
  out : Token
  infile : Option (Option Text)
  outfile : Option (Option Text)
  nargs : ℤ
  maxargs : ℕ
  args : List Cell
  deriving DecidableEq, Repr

/-- The array of the copy after `i` passes of the loop; `none` if an argument is
none, or is stored outside of the array. -/
def copyArgs (c : Cmd) : ℕ → Option (List Cell)
  | 0 => some (List.replicate c.maxargs .unset)
  | i + 1 =>
    (copyArgs c i).bind fun args =>
      match (c.args[i + 2]? : Option Cell) with
      | some (.word w) => if i < c.maxargs then some (args.set i (.word w)) else none
      | _ => none

/-- `make_command_from_args`. -/
def makeCommandFromArgs (c : Cmd) : Option Copied :=
  (copyArgs c (c.nargs - 2)).map fun args =>
    { exec := c.exec
      inp := c.inp
      out := c.out
      infile := none
      outfile := none
      nargs := c.nargs - 2
      maxargs := c.maxargs
      args := args }

/-- `atoi`, as the library has it: what `strtol` returns, in an `int`. -/
def atoi (w : Text) : ℤ :=
  match scanInt w with
  | some (z, _) => toInt (max (-2 ^ 63) (min z (2 ^ 63 - 1)))
  | none => 0

/-- The priority that is set, between -20 and 20. -/
def nicePriority (w : Text) : ℤ := if atoi w < -20 then -20 else if 20 < atoi w then 20 else atoi w

/-- `_nice`, from the test of `args[2]` on. -/
def niceCommand (c : Cmd) (priority : ℤ) : Option (ℤ × Option Copied) :=
  match (c.args[2]? : Option Cell) with
  | some .null => some (priority, none)
  | some (.word _) => (makeCommandFromArgs c).map fun d => (priority, some d)
  | _ => none

/-- `_nice`: the priority, and the command that is passed to `evaluate_command`. -/
def nice (c : Cmd) : Option (ℤ × Option Copied) :=
  match (c.args[1]? : Option Cell) with
  | some .null => niceCommand c 4
  | some (.word w) => niceCommand c (nicePriority w)
  | _ => none

/-- The copy is the command without its first two arguments. -/
structure Keeps (c : Cmd) (d : Copied) : Prop where
  nargs : d.nargs = c.nargs - 2
  args : ∀ i < c.nargs - 2, d.args[i]? = c.args[i + 2]?
  null : d.args[c.nargs - 2]? = some .null
  exec : d.exec = c.exec
  inp : d.inp = c.inp
  out : d.out = c.out
  infile : d.infile = some c.infile
  outfile : d.outfile = some c.outfile

/-! ### What is copied -/

/-- **The loop copies the arguments**, and stores nothing behind them. -/
theorem copyArgs_ok {c : Cmd} (h : c.WellFormed) : ∀ {i : ℕ}, i + 2 ≤ c.nargs →
    ∃ args, copyArgs c i = some args ∧ args.length = c.maxargs ∧ (∀ j < i, args[j]? = c.args[j + 2]?) ∧
      ∀ j, i ≤ j → j < c.maxargs → args[j]? = some .unset
  | 0, _ => by
    refine ⟨_, rfl, List.length_replicate, fun j hj => absurd hj (Nat.not_lt_zero j), ?_⟩
    intro j _ hj
    rw [List.getElem?_replicate, if_pos hj]
  | i + 1, hi => by
    obtain ⟨args, hargs, hlen, hcopied, hrest⟩ := copyArgs_ok h (show i + 2 ≤ c.nargs by omega)
    obtain ⟨w, hw⟩ := h.words (i + 2) (by omega)
    have hroom : i < c.maxargs := by
      have := h.room
      omega
    refine ⟨args.set i (.word w), ?_, by rw [List.length_set, hlen], ?_, ?_⟩
    · rw [copyArgs, hargs, Option.bind_some, hw]
      exact if_pos hroom
    · intro j hj
      by_cases hij : i = j
      · subst hij
        rw [List.getElem?_set_self (by omega), hw]
      · rw [List.getElem?_set_ne hij]
        exact hcopied j (by omega)
    · intro j hj hj'
      rw [List.getElem?_set_ne (by omega)]
      exact hrest j (by omega) hj'

/-- The copy of a command with three arguments or more. -/
theorem makeCommandFromArgs_ok {c : Cmd} (h : c.WellFormed) (hn : 3 ≤ c.nargs) :
    ∃ d, makeCommandFromArgs c = some d ∧ d.nargs = c.nargs - 2 ∧ d.exec = c.exec ∧ d.inp = c.inp ∧ d.out = c.out ∧
      (∀ i < c.nargs - 2, d.args[i]? = c.args[i + 2]?) ∧
      d.infile = none ∧ d.outfile = none ∧ d.args[c.nargs - 2]? = some .unset := by
  obtain ⟨args, hargs, -, hcopied, hrest⟩ := copyArgs_ok h (show (c.nargs - 2) + 2 ≤ c.nargs by omega)
  have hroom := h.room
  rw [makeCommandFromArgs, hargs]
  exact ⟨_, rfl, rfl, rfl, rfl, rfl, hcopied, rfl, rfl, hrest _ le_rfl (by omega)⟩

/-- **No command is passed on as it was**: for every command of the parser, named
`nice` or not, with three arguments or more, the copy is made, but the slot behind its arguments and its two
files are never stored. -/
theorem nice_never {p : Pipe} {c : Cmd} (hp : Parsed p) (hc : c ∈ p.cmds) (hn : 3 ≤ c.nargs) :
    ∃ priority d, nice c = some (priority, some d) ∧ ¬ Keeps c d ∧
      d.args[c.nargs - 2]? = some .unset ∧ d.infile = none ∧ d.outfile = none := by
  have h := hp.wellFormed.cmds c hc
  obtain ⟨w₁, hw₁⟩ := h.words 1 (by omega)
  obtain ⟨w₂, hw₂⟩ := h.words 2 (by omega)
  obtain ⟨d, hd, -, -, -, -, -, hin, hout, hnull⟩ := makeCommandFromArgs_ok h hn
  refine ⟨nicePriority w₁, d, ?_, ?_, hnull, hin, hout⟩
  · rw [nice, hw₁]
    dsimp only
    rw [niceCommand, hw₂]
    dsimp only
    rw [hd]
    rfl
  · intro hk
    rw [hk.null] at hnull
    exact absurd hnull (by decide)

/-- The command of the line `nice 5 ls > f`. -/
def niceLs : Cmd where
  exec := .tsemi
  inp := .tnil
  out := .tout
  infile := none
  outfile := some "f".toList
  nargs := 3
  maxargs := 4
  args := [.word "nice".toList, .word "5".toList, .word "ls".toList, .null]

theorem parsed_niceLs : Parsed ⟨.pout, [niceLs], false⟩ :=
  ⟨.init "nice 5 ls > f\n".toList, [⟨.pout, [niceLs], false⟩], ⟨.tnl, [], [], []⟩, by decide, List.mem_singleton.mpr rfl⟩

/-- What is passed on there: `ls` without the `NULL` behind it, and without its file. -/
theorem nice_ls_unset : Parsed ⟨.pout, [niceLs], false⟩ ∧ niceLs.is "nice" = true ∧ 3 ≤ niceLs.nargs ∧
    nice niceLs = some (5, some ⟨.tsemi, .tnil, .tout, none, none, 1, 4, [.word "ls".toList, .unset, .unset, .unset]⟩) ∧
    ¬ Keeps niceLs ⟨.tsemi, .tnil, .tout, none, none, 1, 4, [.word "ls".toList, .unset, .unset, .unset]⟩ :=
  ⟨parsed_niceLs, by decide, by decide, by decide, fun h => absurd h.null (by decide)⟩

theorem nice_never_ls : Parsed ⟨.pout, [niceLs], false⟩ ∧ niceLs.is "nice" = true ∧
    ∃ priority d, nice niceLs = some (priority, some d) ∧ ¬ Keeps niceLs d := by
  obtain ⟨priority, d, hd, hk, -⟩ := nice_never parsed_niceLs (List.mem_singleton.mpr rfl) (by decide)
  exact ⟨parsed_niceLs, by decide, priority, d, hd, hk⟩

end Shell
end Csc501

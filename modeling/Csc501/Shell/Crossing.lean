/-
# Separators and connectors

Two commands of a pipe should have nothing but a connector between them. A `;` or
`&` behind a command is taken off before the parser looks for a connector, and those
behind a connector are skipped like the ones in front of a line, so a separator on
either side of a connector does not part the commands. Here each command is read
with the numbers of its tokens (`placed`), and beside it only whether a separator
was crossed (`crossings`); the two agree pipe by pipe (`read_crossings`).

Key definitions: `placed`, `Adjacent`, `Unparted`, `crossings`, `Between`, `Clear`.
Key theorems: `Between.take`, `Clear.take`, `read_crossings`, `placed_crossings`.
-/
import Csc501.Shell.Reader

namespace Csc501
namespace Shell

open Lib

/-! ### The commands and their tokens -/

/-- The tokens with their numbers, from `i` on. -/
def number : ℕ → List (Token × Text) → List (Token × (ℕ × Text))
  | _, [] => []
  | i, (t, x) :: l => (t, (i, x)) :: number (i + 1) l

/-- The pipes that `parse` returns, with the numbers of their tokens in the line. -/
def placed (s : St) : List (Built (ℕ × Text)) := trees.read .start none [] (number 0 (lineTokens s))

/-- Between the last token of `c` and the first word of `d` there is one token, a
connector. -/
def Adjacent (toks : List (Token × Text)) (c d : Simple (ℕ × Text)) : Prop :=
  d.first.1 = c.last.1 + 2 ∧ ∃ t x, toks[c.last.1 + 1]? = some (t, x) ∧ t.pipeToken = true

/-- The token with the number `i`; behind the line there is none. -/
def tokenAt (toks : List (Token × Text)) (i : ℕ) : Token := (toks[i]?.map Prod.fst).getD .tnil

theorem tokenAt_eq {toks : List (Token × Text)} {i : ℕ} {t : Token} {x : Text} (h : toks[i]? = some (t, x)) :
    tokenAt toks i = t := by
  simp [tokenAt, h]

/-- The first words of the commands of a pipe. -/
def Built.begins (b : Built (ℕ × Text)) : List ℕ := b.cmds.map fun c => c.first.1

/-- There is no separator between any two of the tokens. -/
def Unparted (toks : List (Token × Text)) (l : List ℕ) : Prop :=
  ∀ i ∈ l, ∀ j ∈ l, ∀ m, i < m → m < j → (tokenAt toks m).cmdToken = false

/-- Whether a separator stood next to a connector of the pipe: one that no command
follows yet, and one that a command follows. -/
structure Crossing where
  pending : Bool
  crossed : Bool
  deriving DecidableEq, Repr

/-- The keeper that looks for separators next to connectors. -/
def crossings {ω : Type*} : Keeper ω Crossing Bool where
  first _ := ⟨false, false⟩
  take k w t _ :=
    match w with
    -- a connector, behind the separator that ended the command
    | .ended _ => { k with pending := true }
    | .connected => if t = .tword then ⟨false, k.crossed || k.pending⟩ else { k with pending := true }
    | _ => k
  close k := k.crossed
  ended k := k.crossed
  lone := false

theorem Follows.number {e : Text} : ∀ {l : List (Token × Text)} {s : St} (i : ℕ), Follows id e l s →
    Follows Prod.snd e (Shell.number i l) s
  | _, _, _, .last he hs => .last he hs
  | _, _, i, .more he hw hl => .more he hw (hl.number (i + 1))

/-! ### One token -/

section Between

variable {toks : List (Token × Text)} {w w' : Where} {i : ℕ} {k : Reading (ℕ × Text)} {c : Crossing}

/-- The commands of the pipe being read are adjacent as far as no separator was
crossed; `i` is the number of the next token. -/
def Between (toks : List (Token × Text)) (w : Where) (i : ℕ) (k : Reading (ℕ × Text)) (c : Crossing) : Prop :=
  ((k.cmds ++ [k.cmd]).IsChain (Adjacent toks) ↔ c.crossed = false) ∧
    match w with
    | .inside _ _ => c.pending = false ∧ k.cmd.last.1 + 1 = i
    | .ended _ => c.pending = false ∧ k.cmd.last.1 + 2 = i
    | .redirect _ _ => c.pending = false
    | .connected => k.cmd.last.1 + 2 ≤ i ∧ (c.pending = false ↔ k.cmd.last.1 + 2 = i) ∧
        (c.pending = false → ∃ t x, toks[k.cmd.last.1 + 1]? = some (t, x) ∧ t.pipeToken = true)
    | _ => True

theorem isChain_first {cmds : List (Simple (ℕ × Text))} {a b : Simple (ℕ × Text)} (h : a.first = b.first) :
    (cmds ++ [a]).IsChain (Adjacent toks) ↔ (cmds ++ [b]).IsChain (Adjacent toks) := by
  have hadj : ∀ c, Adjacent toks c a ↔ Adjacent toks c b := by
    intro c
    rw [Adjacent, Adjacent, h]
  simp [List.isChain_append, hadj]

theorem next_first {t : Token} {x : ℕ × Text} : (k.next t x).cmd.first = k.cmd.first := by
  unfold Reading.next
  split_ifs
  all_goals rfl

theorem next_last {t : Token} {x : ℕ × Text} (h : t ≠ .tword) : (k.next t x).cmd.last = k.cmd.last := by
  unfold Reading.next
  rw [if_neg h]
  split_ifs
  all_goals rfl

theorem file_first {x : ℕ × Text} : (k.file x).cmd.first = k.cmd.first := by
  unfold Reading.file
  split_ifs
  · rfl
  · rfl

theorem file_last {x : ℕ × Text} : (k.file x).cmd.last = x := by
  unfold Reading.file
  split_ifs
  · rfl
  · rfl

/-- What comes behind the first word changes nothing in front of the command. -/
theorem isChain_next {t : Token} {x : ℕ × Text} : ((k.next t x).cmds ++ [(k.next t x).cmd]).IsChain (Adjacent toks) ↔
    (k.cmds ++ [k.cmd]).IsChain (Adjacent toks) := by
  rw [next_cmds]
  exact isChain_first next_first

/-- A token inside a command. -/
theorem Between.inside {t : Token} {x : Text} {inp out : Bool} (h : Between toks (.inside inp out) i k c)
    (hi : toks[i]? = some (t, x)) (hw : (Where.inside inp out).step t = some w') (hskip : w' ≠ .skipping) :
    Between toks w' (i + 1) (k.next t (i, x)) c := by
  obtain ⟨hchain, hpend, hlast⟩ := h
  refine ⟨isChain_next.trans hchain, ?_⟩
  simp only [Where.step] at hw
  split_ifs at hw with h1 h2 h3 h4 h5 h6 h7
  · cases hw
    subst h1
    exact ⟨hpend, rfl⟩
  · cases hw
    exact absurd rfl hskip
  · cases hw
    exact hpend
  · cases hw
    exact absurd rfl hskip
  · cases hw
    exact hpend
  · cases hw
    refine ⟨hpend, ?_⟩
    rw [next_last h1]
    omega
  · cases hw
    cases out with
    | true => exact absurd rfl hskip
    | false =>
      refine ⟨?_, ?_, ?_⟩
      all_goals rw [next_last h1]
      · omega
      · exact iff_of_true hpend (by omega)
      · intro _
        exact ⟨t, x, by rw [hlast]; exact hi, h7⟩

/-- A connector behind a separator. -/
theorem Between.ended {t : Token} {x : Text} {out : Bool} (h : Between toks (.ended out) i k c) (hp : t.pipeToken = true) :
    Between toks .connected (i + 1) (k.next t (i, x)) { c with pending := true } := by
  obtain ⟨hchain, -, hlast⟩ := h
  have hne : t ≠ .tword := by
    rintro rfl
    exact absurd hp (by decide)
  refine ⟨isChain_next.trans hchain, ?_, ?_, ?_⟩
  all_goals rw [next_last hne]
  · omega
  · exact iff_of_false (by simp) (by omega)
  · exact nofun

/-- A separator behind a connector. -/
theorem Between.separator (h : Between toks .connected i k c) :
    Between toks .connected (i + 1) k { c with pending := true } := by
  obtain ⟨hchain, hle, -, -⟩ := h
  exact ⟨hchain, by omega, iff_of_false (by simp) (by omega), nofun⟩

/-- The first word of the next command: it is adjacent if nothing else came between. -/
theorem Between.word {x : Text} {inp out : Bool} (h : Between toks .connected i k c) :
    Between toks (.inside inp out) (i + 1) ⟨k.type, k.cmds ++ [k.cmd], .new k.type.token (i, x), .tnil⟩
      ⟨false, c.crossed || c.pending⟩ := by
  obtain ⟨hchain, -, hpend, htok⟩ := h
  refine ⟨?_, rfl, rfl⟩
  have hadj : Adjacent toks k.cmd (.new k.type.token (i, x)) ↔ c.pending = false := by
    refine ⟨fun ⟨hfirst, _⟩ => hpend.mpr hfirst.symm, fun hc => ⟨(hpend.mp hc).symm, htok hc⟩⟩
  have hjoin : ((k.cmds ++ [k.cmd]) ++ [Simple.new k.type.token (i, x)]).IsChain (Adjacent toks) ↔
      (k.cmds ++ [k.cmd]).IsChain (Adjacent toks) ∧ Adjacent toks k.cmd (.new k.type.token (i, x)) := by
    rw [List.isChain_append]
    simp
  rw [hjoin, hchain, hadj, Bool.or_eq_false_iff]

/-- **One token.** -/
theorem Between.take {t : Token} {x : Text} (h : Between toks w i k c) (hi : toks[i]? = some (t, x))
    (hw : w.step t = some w') (hskip : w' ≠ .skipping) (hf : w.fresh t = false) :
    Between toks w' (i + 1) (trees.take k w t (i, x)) (crossings.take c w t x) := by
  cases w with
  | start => exact absurd hf (by simp [Where.fresh])
  | skipping =>
    cases hw
    exact absurd rfl hskip
  | inside inp out => exact h.inside hi hw hskip
  | ended out =>
    have hp : t.pipeToken = true := by simpa [Where.fresh] using hf
    simp only [Where.step, hp, if_true] at hw
    cases hw
    cases out with
    | true => exact absurd rfl hskip
    | false => exact h.ended hp
  | redirect inp out =>
    simp only [Where.step] at hw
    split_ifs at hw with ht
    · cases hw
      refine ⟨?_, h.2, ?_⟩
      · show ((k.file (i, x)).cmds ++ [(k.file (i, x)).cmd]).IsChain _ ↔ _
        rw [file_cmds]
        exact (isChain_first file_first).trans h.1
      · show (k.file (i, x)).cmd.last.1 + 1 = i + 1
        rw [file_last]
    · cases hw
      exact absurd rfl hskip
  | connected =>
    simp only [Where.step] at hw
    split_ifs at hw with h1 h2
    · have hne : t ≠ .tword := by
        rintro rfl
        exact absurd h1 (by decide)
      cases hw
      have hk : trees.take k .connected t (i, x) = k := if_neg hne
      have hc : crossings.take c .connected t x = { c with pending := true } := if_neg hne
      rw [hk, hc]
      exact h.separator
    · subst h2
      cases hw
      exact h.word
    · cases hw
      exact absurd rfl hskip

/-- The first words of the commands read so far. -/
def Reading.begins (k : Reading (ℕ × Text)) : List ℕ := (trees.close k).begins

theorem next_begins {t : Token} {x : ℕ × Text} : (k.next t x).begins = k.begins := by
  simp [Reading.begins, Built.begins, trees, next_cmds, next_first]

theorem file_begins {x : ℕ × Text} : (k.file x).begins = k.begins := by
  simp [Reading.begins, Built.begins, trees, file_cmds, file_first]

theorem word_begins {type : Ptype} {inpipe : Token} {x : Text} :
    (⟨type, k.cmds ++ [k.cmd], .new inpipe (i, x), .tnil⟩ : Reading (ℕ × Text)).begins = k.begins ++ [i] := by
  simp [Reading.begins, Built.begins, trees, Simple.new]

theorem first_begins {x : Text} : (trees.first (i, x)).begins = [i] := rfl

/-- As long as no separator is crossed there is none between the commands of the pipe,
nor behind them, if it is not the one that ended the last of them. -/
structure Clear (toks : List (Token × Text)) (w : Where) (i : ℕ) (k : Reading (ℕ × Text)) (c : Crossing) : Prop where
  below : ∀ a ∈ k.begins, a < i
  within : c.crossed = false → Unparted toks k.begins
  behind : c.crossed = false → c.pending = false → (∀ out, w ≠ .ended out) →
    ∀ a ∈ k.begins, ∀ m, a < m → m < i → (tokenAt toks m).cmdToken = false

theorem Clear.first {x : Text} : Clear toks w (i + 1) (trees.first (i, x)) ⟨false, false⟩ where
  below a ha := by
    rw [first_begins, List.mem_singleton] at ha
    omega
  within _ a ha b hb m h1 h2 := by
    rw [first_begins, List.mem_singleton] at ha hb
    omega
  behind _ _ _ a ha m h1 h2 := by
    rw [first_begins, List.mem_singleton] at ha
    omega

/-- A token that begins no command. -/
theorem Clear.keep {t : Token} {x : Text} {k' : Reading (ℕ × Text)} {c' : Crossing} (h : Clear toks w i k c)
    (hi : toks[i]? = some (t, x)) (hk : k'.begins = k.begins) (hc : c'.crossed = c.crossed)
    (hsep : c'.pending = false → (∀ out, w' ≠ .ended out) →
      t.cmdToken = false ∧ c.pending = false ∧ ∀ out, w ≠ .ended out) : Clear toks w' (i + 1) k' c' where
  below a ha := (h.below a (hk ▸ ha)).trans (Nat.lt_succ_self i)
  within hx := by
    rw [hk]
    exact h.within (hc ▸ hx)
  behind hx hp hw a ha m h1 h2 := by
    obtain ⟨ht, hp', hw'⟩ := hsep hp hw
    rcases Nat.lt_succ_iff_lt_or_eq.mp h2 with hlt | rfl
    · exact h.behind (hc ▸ hx) hp' hw' a (hk ▸ ha) m h1 hlt
    · rw [tokenAt_eq hi]
      exact ht

/-- The first word of the next command. -/
theorem Clear.word {x : Text} {inp out : Bool} (h : Clear toks .connected i k c) (hi : toks[i]? = some (.tword, x)) :
    Clear toks (.inside inp out) (i + 1) ⟨k.type, k.cmds ++ [k.cmd], .new k.type.token (i, x), .tnil⟩
      ⟨false, c.crossed || c.pending⟩ := by
  have hbehind : (c.crossed || c.pending) = false →
      ∀ a ∈ k.begins, ∀ m, a < m → m < i → (tokenAt toks m).cmdToken = false := by
    intro hx
    obtain ⟨hx, hp⟩ := Bool.or_eq_false_iff.mp hx
    exact h.behind hx hp (by simp)
  have hmem : ∀ {a : ℕ}, a ∈ k.begins ++ [i] → a ∈ k.begins ∨ a = i := by simp
  refine ⟨?_, ?_, ?_⟩
  · intro a ha
    rw [word_begins] at ha
    rcases hmem ha with ha | rfl
    · exact (h.below a ha).trans (Nat.lt_succ_self i)
    · exact Nat.lt_succ_self a
  · intro hx
    rw [word_begins]
    intro a ha b hb m h1 h2
    rcases hmem ha with ha' | rfl
    · rcases hmem hb with hb' | rfl
      · exact h.within (Bool.or_eq_false_iff.mp hx).1 a ha' b hb' m h1 h2
      · exact hbehind hx a ha' m h1 h2
    · rcases hmem hb with hb' | rfl
      · have := h.below b hb'
        omega
      · omega
  · intro hx _ _ a ha m h1 h2
    rw [word_begins] at ha
    rcases hmem ha with ha' | rfl
    · rcases Nat.lt_succ_iff_lt_or_eq.mp h2 with hlt | rfl
      · exact hbehind hx a ha' m h1 hlt
      · rw [tokenAt_eq hi]
        rfl
    · omega

/-- **One token**, as far as the separators go. -/
theorem Clear.take {t : Token} {x : Text} (h : Clear toks w i k c) (hi : toks[i]? = some (t, x))
    (hpend : c.pending = true → w = .connected) (hw : w.step t = some w') (hskip : w' ≠ .skipping)
    (hf : w.fresh t = false) : Clear toks w' (i + 1) (trees.take k w t (i, x)) (crossings.take c w t x) := by
  have hno : w ≠ .connected → c.pending = false := fun hne => Bool.eq_false_iff.mpr fun hp => hne (hpend hp)
  cases w with
  | start => exact absurd hf (by simp [Where.fresh])
  | skipping =>
    cases hw
    exact absurd rfl hskip
  | inside inp out =>
    refine h.keep hi next_begins rfl fun _ hout => ⟨?_, hno (by simp), by simp⟩
    -- a separator ends the command
    rw [← Bool.not_eq_true]
    intro ht
    have hend : (Where.inside inp out).step t = some (.ended out) := by
      revert ht
      cases t <;> simp [Token.cmdToken, Where.step, Token.toFile]
    exact hout out (Option.some.inj (hw.symm.trans hend))
  | ended out =>
    exact h.keep hi next_begins rfl fun hp _ => absurd hp (by simp [crossings])
  | redirect inp out =>
    refine h.keep hi file_begins rfl fun _ _ => ⟨?_, hno (by simp), by simp⟩
    simp only [Where.step] at hw
    split_ifs at hw with ht
    · subst ht
      rfl
    · cases hw
      exact absurd rfl hskip
  | connected =>
    by_cases ht : t = .tword
    · subst ht
      cases hw
      exact h.word hi
    · have hk : trees.take k .connected t (i, x) = k := if_neg ht
      have hc : crossings.take c .connected t x = { c with pending := true } := if_neg ht
      rw [hk, hc]
      exact h.keep hi rfl rfl fun hp _ => absurd hp (by simp)

/-- A separator is only waited behind in front of a command. -/
theorem pending_take {t : Token} {x : Text} (h : c.pending = true → w = .connected) (hw : w.step t = some w')
    (hskip : w' ≠ .skipping) (hf : w.fresh t = false) (hp : (crossings.take c w t x).pending = true) :
    w' = .connected := by
  cases w with
  | start => exact absurd hf (by simp [Where.fresh])
  | skipping =>
    cases hw
    exact absurd rfl hskip
  | inside inp out => exact absurd (h hp) (by simp)
  | redirect inp out => exact absurd (h hp) (by simp)
  | ended out =>
    have hpipe : t.pipeToken = true := by simpa [Where.fresh] using hf
    simp only [Where.step, hpipe, if_true] at hw
    cases hw
    cases out with
    | true => exact absurd rfl hskip
    | false => rfl
  | connected =>
    simp only [Where.step] at hw
    split_ifs at hw with h1 h2
    · exact (Option.some.inj hw).symm
    · subst h2
      exact absurd hp (by simp [crossings])
    · cases hw
      exact absurd rfl hskip

end Between

/-! ### A line -/

section Line

variable {toks : List (Token × Text)}

/-- A pipe that is read, beside what was found of it. -/
structure Agrees (toks : List (Token × Text)) (b : Built (ℕ × Text)) (crossed : Bool) : Prop where
  adjacent : b.cmds.IsChain (Adjacent toks) ↔ crossed = false
  unparted : crossed = false → Unparted toks b.begins

/-- The pipe being read, if there is one. -/
inductive Beside (toks : List (Token × Text)) (w : Where) (i : ℕ) :
    Option (Reading (ℕ × Text)) → Option Crossing → Prop
  | none : Beside toks w i none none
  | some {k : Reading (ℕ × Text)} {c : Crossing} : Between toks w i k c → Clear toks w i k c →
      (c.pending = true → w = .connected) → Beside toks w i (some k) (some c)

theorem Beside.closed {w : Where} {i : ℕ} {k : Option (Reading (ℕ × Text))} {c : Option Crossing}
    (h : Beside toks w i k c) : List.Forall₂ (Agrees toks) (trees.closed k) (crossings.closed (ω := Text) c) := by
  cases h with
  | none => exact .nil
  | some h hc => exact .cons ⟨h.1, hc.within⟩ .nil

theorem Beside.finish {w : Where} {i : ℕ} {k : Option (Reading (ℕ × Text))} {c : Option Crossing}
    (h : Beside toks w i k c) (t : Token) :
    List.Forall₂ (Agrees toks) (trees.finish w k t) (crossings.finish (ω := Text) w c t) := by
  cases w with
  | start =>
    simp only [Keeper.finish]
    split_ifs
    · exact .cons ⟨iff_of_true List.isChain_nil rfl, fun _ i hi => absurd hi List.not_mem_nil⟩ .nil
    · exact .nil
  | connected =>
    simp only [Keeper.finish]
    split_ifs
    · cases h with
      | none => exact .nil
      | some h hc => exact .cons ⟨h.1, hc.within⟩ .nil
    · exact .nil
  | inside _ _ =>
    simp only [Keeper.finish]
    split_ifs
    · exact .nil
    · exact h.closed
  | ended _ => exact h.closed
  | redirect _ _ => exact .nil
  | skipping => exact .nil

/-- **The two readings of a line agree**, pipe by pipe. -/
theorem read_crossings : ∀ {l : List (Token × Text)} {w : Where} {i : ℕ} {k : Option (Reading (ℕ × Text))}
    {c : Option Crossing} {done : List (Built (ℕ × Text))} {found : List Bool}, toks.drop i = l →
    Beside toks w i k c → List.Forall₂ (Agrees toks) done found →
    List.Forall₂ (Agrees toks) (trees.read w k done (number i l)) (crossings.read w c found l)
  | [], _, _, _, _, _, _, _, _, hd => hd
  | (t, x) :: l, w, i, k, c, done, found, hl, h, hd => by
    have hi : toks[i]? = some (t, x) := by
      rw [← List.head?_drop, hl]
      rfl
    have hrest : toks.drop (i + 1) = l := by
      rw [← List.tail_drop, hl]
      rfl
    have hclosed := List.rel_append hd h.closed
    rw [number]
    cases w.turn t with
    | ends he =>
      rw [Keeper.read_end done he, Keeper.read_end found he]
      exact List.rel_append hd (h.finish t)
    | stops he hw =>
      rw [Keeper.read_stop done he hw, Keeper.read_stop found he hw]
      exact List.forall₂_take 1 hclosed
    | skips he hw =>
      rw [Keeper.read_skipping done he hw, Keeper.read_skipping found he hw]
      exact hd
    | begins w' he hw hne hf =>
      rw [Keeper.read_fresh done he hw hne hf, Keeper.read_fresh found he hw hne hf]
      apply read_crossings hrest _ hclosed
      split_ifs with ht
      · -- the first word of a pipe
        subst ht
        rw [Where.step_fresh hf] at hw
        cases hw
        exact .some ⟨iff_of_true (List.isChain_singleton _) rfl, rfl, rfl⟩ .first (fun hp => absurd hp (by simp [crossings]))
      · exact .none
    | goes w' he hw hne hf =>
      rw [Keeper.read_take done he hw hne hf, Keeper.read_take found he hw hne hf]
      apply read_crossings hrest _ hd
      cases h with
      | none => exact .none
      | some h hc hp =>
        exact .some (h.take hi hw hne hf) (hc.take hi hp hw hne hf) fun hp' => pending_take hp hw hne hf hp'

end Line

/-- The pipes that are returned, beside what is found of them. -/
theorem placed_crossings (s : St) :
    List.Forall₂ (Agrees (lineTokens s)) (placed s) (crossings.read .start none [] (lineTokens s)) :=
  read_crossings List.drop_zero .none .nil

end Shell
end Csc501

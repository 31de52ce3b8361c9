/-
# Lines that keep their separators apart

Two commands with a `;` or `&` between them should be in different pipes, or the line
should be reported as an error. Two things go wrong. A separator next to a connector is
skipped, and the commands on both sides of the two are joined (`crosses`); that shows
in what is returned if the pipe gets complete in front of the first error of the line,
and, if this error is an operator where a pipe is to begin (`stops`), if the pipe is the
first one. And a command in which the line is cut off (`cutShort`) is dropped with its
pipe, without a message. A line without the two keeps its separators, and no other does
(`separated_iff`).

Key definitions: `commandAt`, `Parted`, `DifferentPipes`, `Separated`, `stops`, `crosses`, `cutShort`, `Kept`.
Key theorems: `read_crosses`, `read_begins`, `separated_iff`.
-/
import Csc501.Shell.Crossing
import Csc501.Shell.Errors
import Csc501.Shell.Reports

namespace Csc501
namespace Shell

open Lib

/-! ### What is asked for -/

/-- The token `i` is the first one of the line, or one behind a separator or a connector. -/
def opensAt (toks : List (Token × Text)) (i : ℕ) : Bool :=
  i = 0 || (tokenAt toks (i - 1)).cmdToken || (tokenAt toks (i - 1)).pipeToken

/-- A command begins with the token `i`. -/
def commandAt (toks : List (Token × Text)) (i : ℕ) : Bool := tokenAt toks i = .tword && opensAt toks i

/-- Commands begin with the tokens `i` and `j`, and there is a separator between them. -/
def Parted (toks : List (Token × Text)) (i j : ℕ) : Prop :=
  commandAt toks i = true ∧ commandAt toks j = true ∧ ∃ m, i < m ∧ m < j ∧ (tokenAt toks m).cmdToken = true

/-- The commands that begin with the tokens `i` and `j` are in different pipes. -/
def DifferentPipes (bs : List (Built (ℕ × Text))) (i j : ℕ) : Prop :=
  ∃ p q : ℕ, p ≠ q ∧ (∃ b, bs[p]? = some b ∧ i ∈ b.begins) ∧ ∃ c, bs[q]? = some c ∧ j ∈ c.begins

/-- Nothing but a connector stands between two commands that are next to each other in
a pipe that is returned, and any two commands of the line with a separator between them
are in different ones of these pipes, or something is printed about the line. -/
structure Separated (s s' : St) : Prop where
  adjacent : ∀ b ∈ placed s, b.cmds.IsChain (Adjacent (lineTokens s))
  apart : ∀ i j, Parted (lineTokens s) i j → DifferentPipes (placed s) i j ∨ s'.printed ≠ s.printed

/-! ### The lines that have it -/

section Lines

variable {ω : Type*}

/-- At this place the token makes up a separator and a connector next to each other,
with the one in front of it. -/
def Where.beside : Where → Token → Bool
  | .ended _, t => t.pipeToken
  | .connected, t => t.cmdToken
  | _, _ => false

/-- A command comes next, behind any separators. -/
def wordFirst : List (Token × ω) → Bool
  | [] => false
  | (t, _) :: l => if t.cmdToken then wordFirst l else t = .tword

/-- The first error from a place on is an operator where a pipe is to begin. -/
def stops : Where → List (Token × ω) → Bool
  | _, [] => false
  | w, (t, _) :: l =>
    if t.endOfInput then false
    else
      match w.step t with
      | none => true
      | some w' => stops w' l

/-- From a place on, a separator stands next to a connector that a command follows, in
a pipe that gets complete without an error. With `first`, only the pipe that is being
read counts. -/
def crosses (first : Bool) : Where → List (Token × ω) → Bool
  | _, [] => false
  | w, (t, x) :: l =>
    if t.endOfInput || first && w ≠ .start && w.fresh t then false
    else
      w.beside t && wordFirst l && !invalid w ((t, x) :: l) ||
        match w.step t with
        | none => false
        | some w' => crosses first w' l

/-- The place is in a command, behind a word. -/
def Where.isInside : Where → Bool
  | .inside _ _ => true
  | _ => false

/-- From a place on there is no error but that the line is cut off in a command. -/
def cutShort : Where → List (Token × ω) → Bool
  | _, [] => false
  | w, (t, _) :: l =>
    if t.endOfInput then w.isInside && t = .terror
    else
      match w.step t with
      | none => false
      | some w' => cutShort w' l

end Lines

/-- The condition on the tokens of a line: no separator is crossed in a pipe that is
kept, and the line is not cut off without a message in a command, if there is a
separator between commands in it. -/
structure Kept (s : St) : Prop where
  uncrossed : crosses (stops .start (lineTokens s)) .start (lineTokens s) = false
  whole : cutShort .start (lineTokens s) = true → lineMessage s = [] → ∀ i j, ¬ Parted (lineTokens s) i j

/-! ### Separators that are crossed -/

/-- A line of tokens, with the one that ends it. -/
inductive Ended {ω : Type*} : List (Token × ω) → Prop
  | last {t : Token} {x : ω} : t.endOfInput = true → Ended [(t, x)]
  | more {t : Token} {x : ω} {l : List (Token × ω)} : t.endOfInput = false → Ended l → Ended ((t, x) :: l)

theorem Follows.ended {ω : Type*} {f : ω → Text} {e : Text} {l : List (Token × ω)} {s : St} (h : Follows f e l s) :
    Ended l := by
  induction h with
  | last he _ => exact .last he
  | more he _ _ ih => exact .more he ih

section Ended

variable {ω : Type*} {t : Token} {x : ω} {l : List (Token × ω)}

theorem Ended.tail (h : Ended ((t, x) :: l)) (he : t.endOfInput = false) : Ended l := by
  cases h with
  | last he' => exact absurd (he'.symm.trans he) (by simp)
  | more _ hl => exact hl

theorem Ended.nil (h : Ended ((t, x) :: l)) (he : t.endOfInput = true) : l = [] := by
  cases h with
  | last _ => rfl
  | more he' _ => exact absurd (he'.symm.trans he) (by simp)

end Ended

section Steps

variable {ω : Type*} {first : Bool} {w w' : Where} {t : Token} {x : ω} {l : List (Token × ω)}

theorem stops_step (he : t.endOfInput = false) (hw : w.step t = some w') : stops w ((t, x) :: l) = stops w' l := by
  rw [stops, he, if_neg (by simp), hw]

theorem stops_skipping : ∀ {l : List (Token × ω)}, stops .skipping l = false
  | [] => rfl
  | (t, x) :: l => by
    rw [stops]
    split_ifs
    · rfl
    · exact stops_skipping

theorem crosses_skipping : ∀ {l : List (Token × ω)}, crosses first .skipping l = false
  | [] => rfl
  | (t, x) :: l => by
    rw [crosses]
    split_ifs
    · rfl
    · exact crosses_skipping

theorem cutShort_skipping : ∀ {l : List (Token × ω)}, cutShort .skipping l = false
  | [] => rfl
  | (t, x) :: l => by
    rw [cutShort]
    split_ifs
    · rfl
    · exact cutShort_skipping

theorem cutShort_step (he : t.endOfInput = false) (hw : w.step t = some w') :
    cutShort w ((t, x) :: l) = cutShort w' l := by
  rw [cutShort, he, if_neg (by simp), hw]

/-- A pipe is over where the next one begins. -/
theorem invalid_fresh (he : t.endOfInput = false) (hst : w ≠ .start) (hf : w.fresh t = true) :
    invalid w ((t, x) :: l) = false := by
  rw [invalid, he, if_neg (by simp), if_pos (by simp [hst, hf])]

theorem invalid_step (he : t.endOfInput = false) (hw : w.step t = some w') (hne : w' ≠ .skipping)
    (hf : w.fresh t = false) : invalid w ((t, x) :: l) = invalid w' l := by
  rw [invalid, he, if_neg (by simp), if_neg (by simp [hf]), hw]
  simp [hne]

theorem invalid_skipping (he : t.endOfInput = false) (hw : w.step t = some .skipping) (hf : w.fresh t = false) :
    invalid w ((t, x) :: l) = true := by
  rw [invalid, he, if_neg (by simp), if_neg (by simp [hf]), hw]
  rfl

/-- A token of the pipe that is being read. -/
theorem crosses_take (he : t.endOfInput = false) (hw : w.step t = some w') (hne : w' ≠ .skipping)
    (hf : w.fresh t = false) :
    crosses first w ((t, x) :: l) = (w.beside t && wordFirst l && !invalid w' l || crosses first w' l) := by
  rw [crosses, he, hf, invalid_step he hw hne hf, hw]
  simp

/-- A token that begins a pipe, or stands in front of one. -/
theorem crosses_fresh (he : t.endOfInput = false) (hw : w.step t = some w') (hf : w.fresh t = true)
    (hst : first = true → w = .start) : crosses first w ((t, x) :: l) = crosses first w' l := by
  have hb : w.beside t = false := by
    revert hf
    cases w <;> simp [Where.beside, Where.fresh]
  have hcond : (first && w ≠ .start && w.fresh t) = false := by
    cases first with
    | false => rfl
    | true => simp [hst rfl]
  rw [crosses, he, hcond, hb, hw]
  simp

end Steps

/-- A pipe is being read behind its first word. -/
theorem begins_place {κ : Type*} {k : κ} {w' : Where} {t : Token} (hw : Where.begin t = some w') :
    (if t = .tword then some k else none) = none ↔ w' = .start := by
  unfold Where.begin at hw
  split_ifs at hw with h1 h2
  · cases hw
    have hne : t ≠ .tword := by
      rintro rfl
      exact absurd h1 (by decide)
    simp [hne]
  · cases hw
    simp [h2]

/-- The pipe being read has crossed a separator, or is to cross one with the next
command, and gets complete. -/
def hot {ω : Type*} (w : Where) (l : List (Token × ω)) : Option Crossing → Bool
  | none => false
  | some c => (c.crossed || c.pending && wordFirst l) && !invalid w l

section Hot

variable {first : Bool} {w w' : Where} {t : Token} {x : Text} {l : List (Token × Text)} {c : Crossing} {k : Option Crossing}

/-- What is pending when a token is taken off is what stands beside it. -/
theorem crossed_take (hp : c.pending = true → w = .connected) (he : t.endOfInput = false) (hw : w.step t = some w')
    (hne : w' ≠ .skipping) (hf : w.fresh t = false) :
    (c.crossed || c.pending && wordFirst ((t, x) :: l) || w.beside t && wordFirst l) =
      ((crossings.take c w t x).crossed || (crossings.take c w t x).pending && wordFirst l) := by
  have hno : w ≠ .connected → c.pending = false := fun h => Bool.eq_false_iff.mpr fun h' => h (hp h')
  cases w with
  | start => exact absurd hf (by simp [Where.fresh])
  | skipping =>
    cases hw
    exact absurd rfl hne
  | inside inp out => simp [crossings, Where.beside, hno]
  | redirect inp out => simp [crossings, Where.beside, hno]
  | ended out =>
    have hpipe : t.pipeToken = true := by simpa [Where.fresh] using hf
    simp [crossings, Where.beside, hno, hpipe]
  | connected =>
    by_cases ht : t = .tword
    · subst ht
      simp [crossings, Where.beside, wordFirst, Token.cmdToken]
    · have hcmd : t.cmdToken = true := by
        by_contra hcmd
        simp only [Where.step] at hw
        rw [if_neg hcmd, if_neg ht] at hw
        exact hne (Option.some.inj hw).symm
      have habsorb : (c.pending && wordFirst l || wordFirst l) = wordFirst l := by cases c.pending <;> simp
      simp [crossings, Where.beside, wordFirst, hcmd, ht, Bool.or_assoc, habsorb]

theorem hot_take (hp : c.pending = true → w = .connected) (he : t.endOfInput = false) (hw : w.step t = some w')
    (hne : w' ≠ .skipping) (hf : w.fresh t = false) :
    (hot w ((t, x) :: l) (some c) || crosses first w ((t, x) :: l)) =
      (hot w' l (some (crossings.take c w t x)) || crosses first w' l) := by
  rw [hot, hot, ← crossed_take (x := x) (l := l) hp he hw hne hf, crosses_take he hw hne hf, invalid_step he hw hne hf,
    ← Bool.or_assoc, ← Bool.and_or_distrib_right]

/-- At the end of the line the pipe is added that is hot. -/
theorem hot_end (hp : ∀ c, k = some c → c.pending = true → w = .connected) (hk : k = none ↔ w = .start)
    (hsk : w ≠ .skipping) (he : t.endOfInput = true) :
    true ∈ crossings.finish (ω := Text) w k t ↔ hot w [(t, x)] k = true := by
  have hword : wordFirst [(t, x)] = false := by
    revert he
    cases t <;> simp [wordFirst, Token.endOfInput, Token.cmdToken]
  cases k with
  | none =>
    obtain rfl := hk.mp rfl
    by_cases ht : t = .tend <;> simp [Keeper.finish, crossings, hot, ht]
  | some c =>
    have hinv : invalid w [(t, x)] = w.cutOff t := by rw [invalid, if_pos he]
    rw [hot, hinv, hword, Bool.and_false, Bool.or_false]
    cases w with
    | start => exact absurd (hk.mpr rfl) (by simp)
    | skipping => exact absurd rfl hsk
    | connected => by_cases ht : t = .tend <;> simp [Keeper.finish, crossings, Where.cutOff, ht]
    | inside inp out =>
      by_cases ht : t = .terror <;> simp [Keeper.finish, Keeper.closed, crossings, Where.cutOff, ht]
    | ended out => simp [Keeper.finish, Keeper.closed, crossings, Where.cutOff]
    | redirect inp out => simp [Keeper.finish, Where.cutOff]

/-- Where the line stops, the pipe is added that is hot. -/
theorem hot_stop (hp : ∀ c, k = some c → c.pending = true → w = .connected) (hk : k = none ↔ w = .start)
    (he : t.endOfInput = false) (hw : w.step t = none) :
    (hot w ((t, x) :: l) k || crosses first w ((t, x) :: l)) = true ↔ true ∈ crossings.closed (ω := Text) k := by
  have hne : w ≠ .connected := by
    rintro rfl
    simp only [Where.step] at hw
    split_ifs at hw
  have hb : w.beside t = false := by
    cases w with
    | connected => exact absurd rfl hne
    | ended out =>
      refine Bool.eq_false_iff.mpr fun hpipe => ?_
      have hpipe' : t.pipeToken = true := hpipe
      simp [Where.step, hpipe'] at hw
    | _ => rfl
  have hcrosses : crosses first w ((t, x) :: l) = false := by
    rw [crosses, hb, hw]
    simp
  rw [hcrosses, Bool.or_false]
  cases k with
  | none => simp [hot, Keeper.closed]
  | some c =>
    have hst : w ≠ .start := fun h => absurd (hk.mpr h) (by simp)
    have hpend : c.pending = false := Bool.eq_false_iff.mpr fun h => hne (hp c rfl h)
    have hinv : invalid w ((t, x) :: l) = false := by
      rw [invalid, he, hw]
      simp [hst]
    simp [hot, hinv, hpend, Keeper.closed, crossings]

end Hot

/-- Where the line stops at an operator, a pipe that is read already is the only one
that is kept. -/
theorem read_stopped {ω κ ρ : Type*} {K : Keeper ω κ ρ} : ∀ {l : List (Token × ω)} {w : Where} {k : Option κ}
    {done : List ρ}, stops w l = true → done ≠ [] → K.read w k done l = done.take 1
  | [], _, _, _, h, _ => absurd h (by simp [stops])
  | (t, x) :: l, w, k, done, h, hd => by
    have htake : (done ++ K.closed k).take 1 = done.take 1 :=
      List.take_append_of_le_length (List.length_pos_of_ne_nil hd)
    cases w.turn t with
    | ends he => exact absurd h (by simp [stops, he])
    | stops he hw => rw [Keeper.read_stop done he hw, htake]
    | skips he hw => exact absurd ((stops_step he hw).symm.trans h) (by simp [stops_skipping])
    | begins w' he hw hne hf =>
      rw [Keeper.read_fresh done he hw hne hf, read_stopped ((stops_step he hw).symm.trans h) (by simp [hd]), htake]
    | goes w' he hw hne hf =>
      rw [Keeper.read_take done he hw hne hf]
      exact read_stopped ((stops_step he hw).symm.trans h) hd

/-- **A separator is crossed in a pipe that is returned exactly if the tokens say so.** -/
theorem read_crosses : ∀ {l : List (Token × Text)} {w : Where} {k : Option Crossing} {done : List Bool}, Ended l →
    w ≠ .skipping → (k = none ↔ w = .start) → (∀ c, k = some c → c.pending = true → w = .connected) →
    (stops w l = true → done = []) →
    (true ∈ crossings.read w k done l ↔ true ∈ done ∨ (hot w l k || crosses (stops w l) w l) = true)
  | [], _, _, _, hl, _, _, _, _ => absurd hl (by rintro ⟨⟩)
  | (t, x) :: l, w, k, done, hl, hsk, hk, hp, hd => by
    cases w.turn t with
    | ends he =>
      have hcrosses : ∀ first, crosses first w ((t, x) :: l) = false := fun first => by simp [crosses, he]
      obtain rfl := hl.nil he
      rw [Keeper.read_end done he, hcrosses, Bool.or_false, List.mem_append, hot_end (x := x) hp hk hsk he]
    | stops he hw =>
      have hstop : stops w ((t, x) :: l) = true := by rw [stops, he, if_neg (by simp), hw]
      obtain rfl := hd hstop
      rw [Keeper.read_stop [] he hw, hstop, hot_stop (x := x) hp hk he hw, List.nil_append]
      have htake : (crossings.closed (ω := Text) k).take 1 = crossings.closed (ω := Text) k := by cases k <;> rfl
      rw [htake]
      simp
    | skips he hw =>
      obtain ⟨c, rfl⟩ : ∃ c, k = some c :=
        Option.ne_none_iff_exists'.mp fun h => absurd (hk.mp h ▸ hw) Where.start_step_ne
      have hf : w.fresh t = false := Bool.eq_false_iff.mpr fun hf =>
        absurd ((Where.step_fresh hf).symm.trans hw) Where.start_step_ne
      rw [Keeper.read_skipping done he hw, stops_step he hw, stops_skipping, hot, invalid_skipping he hw hf, crosses, he,
        hf, invalid_skipping he hw hf, hw]
      simp [crosses_skipping]
    | begins w' he hw hne hf =>
      have hnew : ∀ {first : Bool}, (hot w' l (if t = .tword then some (crossings.first x) else none) ||
          crosses first w' l) = crosses first w' l := by
        split_ifs <;> simp [hot, crossings]
      have hk' := begins_place (k := crossings.first x) ((Where.step_fresh hf).symm.trans hw)
      have hp' : ∀ c, (if t = .tword then some (crossings.first x) else none) = some c → c.pending = true →
          w' = .connected := by
        intro c hc hpend
        split_ifs at hc
        cases hc
        exact absurd hpend (by simp [crossings])
      rw [Keeper.read_fresh done he hw hne hf, stops_step he hw]
      by_cases hst : w = .start
      · obtain rfl := hk.mpr hst
        have hd' : stops w' l = true → done ++ crossings.closed (ω := Text) none = [] := fun h =>
          (List.append_nil done).trans (hd ((stops_step he hw).trans h))
        rw [read_crosses (hl.tail he) hne hk' hp' hd', hnew, crosses_fresh he hw hf fun _ => hst]
        simp [hot, Keeper.closed]
      · -- the pipe in front is over
        obtain ⟨c, rfl⟩ : ∃ c, k = some c := Option.ne_none_iff_exists'.mp fun h => hst (hk.mp h)
        have hpend : c.pending = false := Bool.eq_false_iff.mpr fun h => absurd hf (by simp [hp c rfl h, Where.fresh])
        have hhot : hot w ((t, x) :: l) (some c) = c.crossed := by
          rw [hot, invalid_fresh he hst hf, hpend]
          simp
        cases hstop : stops w' l with
        | false =>
          rw [read_crosses (hl.tail he) hne hk' hp' (fun h => absurd (hstop.symm.trans h) (by simp)), hnew, hstop, hhot,
            crosses_fresh he hw hf (by simp)]
          simp [Keeper.closed, crossings, or_assoc]
        | true =>
          obtain rfl := hd ((stops_step he hw).trans hstop)
          rw [read_stopped hstop (by simp [Keeper.closed]), hhot]
          simp [Keeper.closed, crossings, crosses, he, hst, hf]
    | goes w' he hw hne hf =>
      obtain ⟨c, rfl⟩ : ∃ c, k = some c :=
        Option.ne_none_iff_exists'.mp fun h => absurd hf (by simp [hk.mp h, Where.fresh])
      rw [Keeper.read_take done he hw hne hf, stops_step he hw, hot_take (hp c rfl) he hw hne hf]
      refine read_crosses (hl.tail he) hne ?_ ?_ fun h => hd ((stops_step he hw).trans h)
      · exact iff_of_false (by simp) (Where.step_ne_start hf hw)
      · rintro c' hc' hp'
        cases hc'
        exact pending_take (hp c rfl) hw hne hf hp'

/-! ### Commands that are returned -/

/-- A command can begin at this place. -/
def Where.outside : Where → Bool
  | .start | .connected | .ended _ => true
  | _ => false

section Begins

variable {toks l : List (Token × Text)} {w w' : Where} {i : ℕ} {t : Token} {x : Text}

theorem step_outside (he : t.endOfInput = false) (hw : w.step t = some w') (hne : w' ≠ .skipping) :
    w'.outside = (t.cmdToken || t.pipeToken) := by
  revert he hw
  cases w with
  | skipping =>
    intro _ hw
    cases hw
    exact absurd rfl hne
  | start =>
    cases t <;> simp [Where.step, Where.begin, Token.endOfInput, Token.cmdToken, Token.pipeToken] <;> rintro rfl <;> rfl
  | connected =>
    cases t <;> simp [Where.step, Token.endOfInput, Token.cmdToken, Token.pipeToken] <;> rintro rfl <;>
      first | rfl | exact absurd rfl hne
  | ended out =>
    cases out <;> cases t <;> simp [Where.step, Where.begin, Where.connect, Token.endOfInput, Token.cmdToken,
      Token.pipeToken] <;> rintro rfl <;> first | rfl | exact absurd rfl hne
  | inside inp out =>
    cases inp <;> cases out <;> cases t <;> simp [Where.step, Where.connect, Token.toFile, Token.endOfInput,
      Token.cmdToken, Token.pipeToken] <;> rintro rfl <;> first | rfl | exact absurd rfl hne
  | redirect inp out =>
    cases t <;> simp [Where.step, Token.endOfInput, Token.cmdToken, Token.pipeToken] <;> rintro rfl <;>
      first | rfl | exact absurd rfl hne

theorem opensAt_succ (hi : toks[i]? = some (t, x)) : opensAt toks (i + 1) = (t.cmdToken || t.pipeToken) := by
  simp [opensAt, tokenAt_eq hi]

theorem commandAt_eq (hi : toks[i]? = some (t, x)) (ho : opensAt toks i = w.outside) :
    commandAt toks i = (t = .tword && w.outside) := by
  rw [commandAt, tokenAt_eq hi, ho]

/-- The first words of the line's commands in front of the token `i`. -/
def commands (toks : List (Token × Text)) (i : ℕ) : List ℕ := (List.range i).filter (commandAt toks)

theorem commands_succ (hi : toks[i]? = some (t, x)) (ho : opensAt toks i = w.outside) :
    commands toks (i + 1) = commands toks i ++ if t = .tword ∧ w.outside = true then [i] else [] := by
  rw [commands, List.range_succ, List.filter_append, ← commands, List.filter_singleton, commandAt_eq hi ho]
  simp

/-- The commands of the pipe being read, behind a token of it. -/
theorem begins_take {k : Reading (ℕ × Text)} (hst : w ≠ .start) (hf : w.fresh t = false) :
    (trees.take k w t (i, x)).begins = k.begins ++ if t = .tword ∧ w.outside = true then [i] else [] := by
  cases w with
  | start => exact absurd rfl hst
  | inside inp out => simpa [trees, Where.outside] using next_begins
  | redirect inp out => simpa [trees, Where.outside] using file_begins
  | skipping => simpa [trees, Where.outside] using next_begins
  | ended out =>
    have hne : t ≠ .tword := by
      rintro rfl
      exact absurd hf (by simp [Where.fresh, Token.pipeToken])
    simpa [trees, hne] using next_begins
  | connected =>
    by_cases ht : t = .tword
    · subst ht
      exact word_begins
    · simp [trees, ht]

theorem closed_begins {k : Option (Reading (ℕ × Text))} :
    (trees.closed k).flatMap Built.begins = k.toList.flatMap Reading.begins := by
  cases k with
  | none => rfl
  | some k => simp [Keeper.closed, Reading.begins]

/-- At the end of a line without an error. -/
theorem finish_begins {k : Option (Reading (ℕ × Text))} (hsk : w ≠ .skipping) (hk : k = none ↔ w = .start)
    (hc : w.complains t = false) :
    ∃ lost, (trees.finish w k t).flatMap Built.begins ++ lost = k.toList.flatMap Reading.begins ∧
      (lost = [] ↔ (w.isInside && t = .terror) = false) := by
  cases k with
  | none =>
    obtain rfl := hk.mp rfl
    refine ⟨[], ?_, by simp [Where.isInside]⟩
    by_cases ht : t = .tend <;> simp [Keeper.finish, trees, Built.begins, ht]
  | some c =>
    have hclose : [trees.close c].flatMap Built.begins = (some c).toList.flatMap Reading.begins := by
      simp [Reading.begins]
    cases w with
    | start => exact absurd (hk.mpr rfl) (by simp)
    | skipping => exact absurd rfl hsk
    | redirect inp out => exact absurd hc (by simp [Where.complains])
    | connected =>
      have ht : t = .tend := by simpa [Where.complains] using hc
      exact ⟨[], by rw [List.append_nil, ← hclose]; simp [Keeper.finish, ht, trees, Built.begins], by simp [Where.isInside]⟩
    | ended out => exact ⟨[], by rw [List.append_nil, ← hclose]; rfl, by simp [Where.isInside]⟩
    | inside inp out =>
      by_cases ht : t = .terror
      · refine ⟨c.begins, by simp [Keeper.finish, ht], ?_⟩
        simp [Where.isInside, ht, Reading.begins, Built.begins, trees]
      · refine ⟨[], ?_, by simp [ht]⟩
        rw [List.append_nil, ← hclose]
        simp [Keeper.finish, Keeper.closed, ht]

/-- **In a line without an error every command is returned**, but for those of the pipe
in which the line is cut off. -/
theorem read_begins : ∀ {l : List (Token × Text)} {w : Where} {i : ℕ} {k : Option (Reading (ℕ × Text))}
    {done : List (Built (ℕ × Text))}, toks.drop i = l → Ended l → faulty w l = false → w ≠ .skipping →
    (k = none ↔ w = .start) → opensAt toks i = w.outside →
    done.flatMap Built.begins ++ k.toList.flatMap Reading.begins = commands toks i →
    ∃ lost, (trees.read w k done (number i l)).flatMap Built.begins ++ lost = commands toks toks.length ∧
      (lost = [] ↔ cutShort w l = false)
  | [], _, _, _, _, _, hend, _, _, _, _, _ => absurd hend (by rintro ⟨⟩)
  | (t, x) :: l, w, i, k, done, hl, hend, hfa, hsk, hk, ho, hb => by
    have hi : toks[i]? = some (t, x) := by
      rw [← List.head?_drop, hl]
      rfl
    have hrest : toks.drop (i + 1) = l := by
      rw [← List.tail_drop, hl]
      rfl
    rw [number]
    cases w.turn t with
    | ends he =>
      obtain rfl := hend.nil he
      have hlen : toks.length = i + 1 := by
        have := congrArg List.length hl
        simp only [List.length_drop, List.length_singleton] at this
        omega
      have hword : t ≠ .tword := by
        rintro rfl
        exact absurd he (by decide)
      have hall : commands toks toks.length = done.flatMap Built.begins ++ k.toList.flatMap Reading.begins := by
        rw [hlen, commands_succ hi ho, if_neg (fun h => hword h.1), List.append_nil, hb]
      obtain ⟨lost, hread, hlost⟩ := finish_begins hsk hk (t := t) ((faulty_end he).symm.trans hfa)
      refine ⟨lost, ?_, hlost.trans ?_⟩
      · rw [Keeper.read_end done he, hall, List.flatMap_append, List.append_assoc, hread]
      · rw [cutShort, if_pos he]
    | stops he hw => exact absurd ((faulty_stop he hw).symm.trans hfa) (by simp)
    | skips he hw => exact absurd ((faulty_skipping he hw).symm.trans hfa) (by simp)
    | begins w' he hw hne hf =>
      have hout : w.outside = true := by
        revert hf
        cases w <;> simp [Where.fresh, Where.outside]
      have hbegin : Where.begin t = some w' := (Where.step_fresh hf).symm.trans hw
      rw [Keeper.read_fresh done he hw hne hf, cutShort_step he hw]
      refine read_begins hrest (hend.tail he) ((faulty_step he hw hne).symm.trans hfa) hne ?_ ?_ ?_
      · exact begins_place hbegin
      · rw [opensAt_succ hi, step_outside he hw hne]
      · rw [commands_succ hi ho, ← hb, List.flatMap_append]
        split_ifs with h1 h2 h2
        · rw [closed_begins, Option.toList_some, List.flatMap_singleton, first_begins]
        · exact absurd ⟨h1, hout⟩ h2
        · exact absurd h2.1 h1
        · rw [closed_begins, Option.toList_none, List.flatMap_nil]
    | goes w' he hw hne hf =>
      have hst : w ≠ .start := by
        rintro rfl
        exact absurd hf (by simp [Where.fresh])
      obtain ⟨c, rfl⟩ : ∃ c, k = some c := Option.ne_none_iff_exists'.mp fun h => hst (hk.mp h)
      rw [Keeper.read_take done he hw hne hf, cutShort_step he hw]
      refine read_begins hrest (hend.tail he) ((faulty_step he hw hne).symm.trans hfa) hne ?_ ?_ ?_
      · exact iff_of_false (by simp) (Where.step_ne_start hf hw)
      · rw [opensAt_succ hi, step_outside he hw hne]
      · rw [commands_succ hi ho, ← hb]
        simp [begins_take hst hf, List.append_assoc]

end Begins

/-! ### What holds of a line -/

theorem commands_pairwise (toks : List (Token × Text)) (n : ℕ) : (commands toks n).Pairwise (· < ·) :=
  List.pairwise_lt_range.filter _

theorem mem_commands {toks : List (Token × Text)} {i : ℕ} (h : commandAt toks i = true) : i ∈ commands toks toks.length := by
  have hlt : i < toks.length := by
    by_contra hge
    have hnil : tokenAt toks i = .tnil := by
      rw [tokenAt, List.getElem?_eq_none (not_lt.mp hge)]
      rfl
    simp [commandAt, hnil] at h
  exact List.mem_filter.mpr ⟨List.mem_range.mpr hlt, h⟩

/-- A line that is cut off has no error in it that the parser complains of. -/
theorem faulty_of_cutShort {ω : Type*} : ∀ {l : List (Token × ω)} {w : Where}, cutShort w l = true → faulty w l = false
  | [], _, h => absurd h (by simp [cutShort])
  | (t, x) :: l, w, h => by
    cases he : t.endOfInput with
    | true =>
      rw [cutShort, if_pos he] at h
      rw [faulty_end he]
      cases w with
      | inside inp out => rfl
      | _ => exact absurd h (by simp [Where.isInside])
    | false =>
      cases hw : w.step t with
      | none => exact absurd h (by simp [cutShort, he, hw])
      | some w' =>
        rw [cutShort_step he hw] at h
        have hne : w' ≠ .skipping := by
          rintro rfl
          exact absurd h (by simp [cutShort_skipping])
        rw [faulty_step he hw hne]
        exact faulty_of_cutShort h

theorem DifferentPipes.mem {bs : List (Built (ℕ × Text))} {i j : ℕ} (h : DifferentPipes bs i j) :
    j ∈ bs.flatMap Built.begins := by
  obtain ⟨_, _, -, -, c, hc, hj⟩ := h
  exact List.mem_flatMap.mpr ⟨c, List.mem_of_getElem? hc, hj⟩

section Line

variable {s s' : St}

/-- The commands of the line are those of the pipes that are returned, in order, and of
a pipe in which the line is cut off. -/
theorem placed_begins (hf : faulty .start (lineTokens s) = false) :
    ∃ lost, (placed s).flatMap Built.begins ++ lost = commands (lineTokens s) (lineTokens s).length ∧
      (lost = [] ↔ cutShort .start (lineTokens s) = false) := by
  obtain ⟨e, hfol⟩ := follows_line s
  exact read_begins List.drop_zero hfol.ended hf (by simp) (by simp) rfl rfl

theorem crossed_iff : true ∈ crossings.read .start none [] (lineTokens s) ↔
    crosses (stops .start (lineTokens s)) .start (lineTokens s) = true := by
  obtain ⟨e, hfol⟩ := follows_line s
  rw [read_crosses hfol.ended (by simp) (by simp) (by simp) (fun _ => rfl)]
  simp [hot]

theorem adjacent_iff : (∀ b ∈ placed s, b.cmds.IsChain (Adjacent (lineTokens s))) ↔
    crosses (stops .start (lineTokens s)) .start (lineTokens s) = false := by
  rw [← Bool.not_eq_true, ← crossed_iff]
  have h := placed_crossings s
  generalize placed s = bs at h
  generalize crossings.read .start none [] (lineTokens s) = found at h
  induction h with
  | nil => simp
  | @cons b c _ _ hb _ ih =>
    have hc : c = false ↔ ¬ true = c := by cases c <;> simp
    rw [List.forall_mem_cons, List.mem_cons, not_or]
    exact and_congr (hb.adjacent.trans hc) ih

theorem placed_unparted (h : crosses (stops .start (lineTokens s)) .start (lineTokens s) = false) :
    ∀ b ∈ placed s, Unparted (lineTokens s) b.begins := by
  have hno := mt crossed_iff.mp (Bool.not_eq_true _ ▸ h)
  have hall := placed_crossings s
  generalize placed s = bs at hall
  generalize crossings.read .start none [] (lineTokens s) = found at hall hno
  induction hall with
  | nil => simp
  | @cons b c _ _ hb _ ih =>
    rw [List.mem_cons, not_or] at hno
    rw [List.forall_mem_cons]
    exact ⟨hb.unparted (by simpa using hno.1), ih hno.2⟩

/-- In a line that is kept a separator puts commands in different pipes. -/
theorem Kept.apart (h : Kept s) (hf : faulty .start (lineTokens s) = false) (hm : lineMessage s = []) {i j : ℕ}
    (hij : Parted (lineTokens s) i j) : DifferentPipes (placed s) i j := by
  obtain ⟨lost, hall, hlost⟩ := placed_begins hf
  have hwhole : lost = [] := hlost.mpr (Bool.eq_false_iff.mpr fun hcut => h.whole hcut hm i j hij)
  obtain ⟨hi, hj, m, him, hmj, hsep⟩ := hij
  rw [hwhole, List.append_nil] at hall
  obtain ⟨b, hb, hib⟩ := List.mem_flatMap.mp (hall ▸ mem_commands hi)
  obtain ⟨c, hc, hjc⟩ := List.mem_flatMap.mp (hall ▸ mem_commands hj)
  obtain ⟨p, hp⟩ := List.mem_iff_getElem?.mp hb
  obtain ⟨q, hq⟩ := List.mem_iff_getElem?.mp hc
  refine ⟨p, q, ?_, ⟨b, hp, hib⟩, c, hq, hjc⟩
  rintro rfl
  cases hp.symm.trans hq
  exact absurd (hsep.symm.trans (placed_unparted h.uncrossed b hb i hib j hjc m him hmj)) (by simp)

/-- The last command of a line that is cut off is in no pipe. -/
theorem cut_not_apart (hcut : cutShort .start (lineTokens s) = true) {i j : ℕ} (hij : Parted (lineTokens s) i j) :
    ∃ n, Parted (lineTokens s) i n ∧ ¬ DifferentPipes (placed s) i n := by
  obtain ⟨lost, hall, hlost⟩ := placed_begins (faulty_of_cutShort hcut)
  have hne : lost ≠ [] := fun h => absurd (hcut.symm.trans (hlost.mp h)) (by simp)
  obtain ⟨n, hn⟩ := List.exists_mem_of_ne_nil _ hne
  have hsorted := commands_pairwise (lineTokens s) (lineTokens s).length
  rw [← hall, List.pairwise_append] at hsorted
  obtain ⟨hi, hj, m, him, hmj, hsep⟩ := hij
  have hout : ∀ {n}, n ∈ lost → ¬ DifferentPipes (placed s) i n := by
    intro n hn h
    exact lt_irrefl n (hsorted.2.2 n h.mem n hn)
  have hn' : commandAt (lineTokens s) n = true :=
    (List.mem_filter.mp (hall ▸ List.mem_append_right _ hn)).2
  rcases List.mem_append.mp (hall.symm ▸ mem_commands hj) with hj' | hj'
  · -- the command of the pipe that is lost is further on
    exact ⟨n, ⟨hi, hn', m, him, hmj.trans (hsorted.2.2 j hj' n hn), hsep⟩, hout hn⟩
  · exact ⟨j, ⟨hi, hj, m, him, hmj, hsep⟩, hout hj'⟩

end Line

/-- **Separators are kept exactly if** the tokens of the line are as `Kept` has them.
What is returned has the commands whose tokens are told apart here. -/
theorem separated_iff (s : St) : ∃ ps s', parse s = some (ps, s') ∧
    ps.map Pipe.view = (placed s).map (Built.view Prod.snd) ∧ (Separated s s' ↔ Kept s) := by
  obtain ⟨ps, s', hr, -⟩ := parse_ok s
  obtain ⟨e, hfol⟩ := follows_line s
  refine ⟨ps, s', hr, (parse_read (hfol.number 0) hr).1, ?_⟩
  have hprinted := parse_printed hr
  constructor
  · intro h
    refine ⟨adjacent_iff.mp h.adjacent, ?_⟩
    intro hcut hm i j hij
    have hsilent := hprinted.mpr ⟨faulty_of_cutShort hcut, hm⟩
    obtain ⟨n, hin, hno⟩ := cut_not_apart hcut hij
    rcases h.apart i n hin with h | h
    · exact hno h
    · exact h hsilent
  · intro h
    refine ⟨adjacent_iff.mpr h.uncrossed, ?_⟩
    intro i j hij
    by_cases hp : s'.printed = s.printed
    · obtain ⟨hf, hm⟩ := hprinted.mp hp
      exact .inl (h.apart hf hm hij)
    · exact .inr hp

/-- A pipe of the commands `a` and `b`, whose words are the tokens 0 and 3. -/
def pipeAB : Built (ℕ × Text) :=
  ⟨.pout, [⟨.tsemi, .tnil, .tpipe, none, none, (0, "a".toList), [], (0, "a".toList)⟩,
    ⟨.tsemi, .tpipe, .tnil, none, none, (3, "b".toList), [], (3, "b".toList)⟩], false⟩

theorem not_separated {s s' : St} (h : placed s = [pipeAB]) : ¬ Separated s s' := by
  intro hs
  have hchain := hs.adjacent pipeAB (by rw [h]; exact List.mem_singleton.mpr rfl)
  exact absurd (List.isChain_cons_cons.mp hchain).1.1 (by decide)

/-- A separator on either side of a connector is crossed: `a ; | b` and `a | ; b` are
both returned as one pipe, and nothing is printed. -/
theorem separators_crossed : (∀ s', ¬ Separated (.init "a ; | b\n".toList) s') ∧
    (∀ s', ¬ Separated (.init "a | ; b\n".toList) s') ∧
    (parse (.init "a ; | b\n".toList)).map (fun r => (r.1.map Pipe.view, r.2.printed)) = some ([pipeAB.view Prod.snd], []) ∧
    (parse (.init "a | ; b\n".toList)).map (fun r => (r.1.map Pipe.view, r.2.printed)) = some ([pipeAB.view Prod.snd], []) :=
  ⟨fun _ => not_separated (by decide), fun _ => not_separated (by decide), by decide, by decide⟩

/-- In `a ; b c`, without a newline, the command `b` is lost without a word. -/
example : (parse (.init "a ; b c".toList)).map (fun r => (r.1.map fun p => p.cmds.length, r.2.printed)) = some ([1], []) := by
  decide

end Shell
end Csc501

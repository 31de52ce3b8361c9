/-
# Where the parser reports the end of the input

`End` makes the shell exit, and `parse` returns it at a `Tend` where a command is
to begin. The lexer takes any byte that is negative as a `char` for the end of the
file, so from 128 on a byte ends the shell, with all that follows it unread, unless
it stands in a command or behind an error (`end_at_end_iff`).

Key definitions: `endsEarly`, `EndsAtEnd`.
Key theorems: `read_atEnd`, `end_at_end_iff`.
-/
import Csc501.Shell.Reader

namespace Csc501
namespace Shell

open Lib

/-- From a place in it, the line ends in a `Tend` that has bytes behind it and
stands where a command is to begin. -/
def endsEarly : ℕ → Where → Text → Bool
  | 0, _, _ => false
  | n + 1, w, s =>
    if (nextToken s).token.endOfInput then
      (nextToken s).token = .tend && (w = .start || w = .connected) && !(nextToken s).rest.isEmpty
    else
      match w.step (nextToken s).token with
      | none => false
      | some w => endsEarly n w (nextToken s).rest

/-- `End` is returned only if all of the input is read. -/
def EndsAtEnd (s : St) : Prop :=
  ∀ ps s', parse s = some (ps, s') → (∃ p ∈ ps, p.atEnd = true) → s'.input = []

/-- A token that does not end the line. -/
theorem endsEarly_next {n : ℕ} {w : Where} {s : St} (he : (next s).la.endOfInput = false) :
    endsEarly (n + 1) w s.input =
      match w.step (next s).la with
      | none => false
      | some w => endsEarly n w (next s).input := by
  rw [endsEarly]
  exact if_neg (Bool.eq_false_iff.mp he)

theorem endsEarly_skipping : ∀ (n : ℕ) (s : Text), endsEarly n .skipping s = false
  | 0, _ => rfl
  | n + 1, s => by
    rw [endsEarly]
    split_ifs
    · simp
    · exact endsEarly_skipping n _

section AtEnd

variable {ω : Type*}

/-- The token that ends the line, as the place has it. -/
theorem finish_atEnd {w : Where} {k : Option (Reading ω)} {t : Token} (hk : k = none → w = .start) :
    (∃ b ∈ trees.finish w k t, b.atEnd = true) ↔ t = .tend ∧ (w = .start ∨ w = .connected) := by
  cases w with
  | start => by_cases ht : t = .tend <;> simp [Keeper.finish, trees, ht]
  | connected =>
    obtain ⟨r, rfl⟩ := Option.ne_none_iff_exists'.mp fun h => absurd (hk h) (by simp)
    by_cases ht : t = .tend <;> simp [Keeper.finish, trees, ht]
  | inside _ _ => by_cases ht : t = .terror <;> simp [Keeper.finish, Keeper.closed, trees, ht]
  | ended _ => simp [Keeper.finish, Keeper.closed, trees]
  | redirect _ _ => simp [Keeper.finish]
  | skipping => simp [Keeper.finish]

/-- No pipe that is over has `End` in it, if it is not the line that is. -/
theorem closed_atEnd {done : List (Built ω)} (hd : ∀ b ∈ done, b.atEnd = false) (k : Option (Reading ω)) :
    ∀ b ∈ done ++ trees.closed k, b.atEnd = false := by
  intro b hb
  rcases List.mem_append.mp hb with hb | hb
  · exact hd b hb
  · obtain ⟨r, -, rfl⟩ := List.mem_map.mp hb
    rfl

/-- A pipe is being read, unless one is to begin. -/
theorem fresh_start {w w' : Where} {t : Token} (hw : w.step t = some w') (hf : w.fresh t = true) (ht : t ≠ .tword) :
    w' = .start := by
  rw [Where.step_fresh hf] at hw
  unfold Where.begin at hw
  split_ifs at hw
  exact (Option.some.inj hw).symm

/-- **`End` is read exactly at a `Tend` where a command is to begin.** -/
theorem read_atEnd {f : ω → Text} {e : Text} : ∀ {n : ℕ} {w : Where} {k : Option (Reading ω)} {done : List (Built ω)}
    {l : List (Token × ω)} {s : St}, Follows f e l (next s) → s.input.length < n → (∀ b ∈ done, b.atEnd = false) →
    (k = none → w = .start) →
    ((∃ b ∈ trees.read w k done l, b.atEnd = true) ∧ e ≠ [] ↔ endsEarly n w s.input = true)
  | 0, _, _, _, _, _, _, hn, _, _ => absurd hn (Nat.not_lt_zero _)
  | n + 1, w, k, done, l, s, hs, hn, hd, hk => by
    have hnone : ∀ {bs : List (Built ω)}, (∀ b ∈ bs, b.atEnd = false) → ¬ ∃ b ∈ bs, b.atEnd = true := by
      rintro bs hbs ⟨b, hb, h⟩
      exact absurd ((hbs b hb).symm.trans h) (by simp)
    obtain ⟨x, l', rfl, -, hl⟩ := hs.cons
    have hlt : (next s).la.endOfInput = false → (next s).input.length < n := by
      intro he
      have hsize := size_next_input s
      unfold St.size at hsize
      rw [he, if_neg (by simp)] at hsize
      omega
    cases w.turn (next s).la with
    | ends he =>
      have he' : (nextToken s.input).token.endOfInput = true := he
      have hin : e = (nextToken s.input).rest := (hs.input_eq he).symm
      have hfin := finish_atEnd (t := (next s).la) hk
      have hmem : (∃ b ∈ done ++ trees.finish w k (next s).la, b.atEnd = true) ↔
          ∃ b ∈ trees.finish w k (next s).la, b.atEnd = true := by
        simp only [List.mem_append, or_and_right, exists_or]
        exact or_iff_right (hnone hd)
      rw [endsEarly, if_pos he', Keeper.read_end done he, hmem, hfin, hin]
      simp [next, and_assoc]
    | stops he hw =>
      rw [endsEarly_next he, hw, Keeper.read_stop done he hw]
      refine iff_of_false ?_ (by simp)
      rintro ⟨⟨b, hb, hat⟩, -⟩
      exact hnone (closed_atEnd hd k) ⟨b, List.mem_of_mem_take hb, hat⟩
    | skips he hw =>
      rw [endsEarly_next he, hw, Keeper.read_skipping done he hw]
      refine iff_of_false (fun h => hnone hd h.1) ?_
      simp [endsEarly_skipping]
    | begins w' he hw hne hf =>
      rw [endsEarly_next he, hw, Keeper.read_fresh done he hw hne hf]
      apply read_atEnd (hl he) (hlt he) (closed_atEnd hd k)
      split_ifs with ht
      · simp
      · exact fun _ => fresh_start hw hf ht
    | goes w' he hw hne hf =>
      rw [endsEarly_next he, hw, Keeper.read_take done he hw hne hf]
      apply read_atEnd (hl he) (hlt he) hd
      intro h
      have hst := hk (Option.map_eq_none_iff.mp h)
      rw [hst] at hf
      exact absurd hf (by simp [Where.fresh])

end AtEnd

/-- **`End` is returned only at the end of the input exactly if** the line does not
end in a byte from 128 on where a command is to begin, with more bytes behind it. -/
theorem end_at_end_iff (s : St) : EndsAtEnd s ↔ endsEarly (s.input.length + 1) .start s.input = false := by
  obtain ⟨ps, s', hr, -⟩ := parse_ok s
  obtain ⟨e, hfol⟩ := follows_line s
  obtain ⟨hviews, hin⟩ := parse_read hfol hr
  have hiff := read_atEnd hfol (Nat.lt_succ_self s.input.length) (show ∀ b ∈ [], Built.atEnd b = false by simp)
    (show none = none → Where.start = .start from fun _ => rfl)
  have hmem : (∃ p ∈ ps, p.atEnd = true) ↔ ∃ b ∈ trees.read .start none [] (lineTokens s), b.atEnd = true := by
    have hat : ps.map Pipe.atEnd = (trees.read .start none [] (lineTokens s)).map Built.atEnd := by
      have h := congrArg (List.map fun v : Ptype × List CmdView × Bool => v.2.2) hviews
      rw [List.map_map, List.map_map] at h
      exact h
    have h : true ∈ ps.map Pipe.atEnd ↔ true ∈ (trees.read .start none [] (lineTokens s)).map Built.atEnd := by rw [hat]
    simpa [List.mem_map] using h
  rw [← Bool.not_eq_true, ← hiff, ← hmem]
  constructor
  · rintro h ⟨hp, hne⟩
    have hnil := h ps s' hr hp
    obtain ⟨p, hp, hat⟩ := hp
    exact hne ((hin p hp hat).symm.trans hnil)
  · intro h ps₁ s₁ hr₁ hp
    cases hr.symm.trans hr₁
    by_contra hne
    obtain ⟨p, hp', hat⟩ := hp
    exact h ⟨⟨p, hp', hat⟩, fun he => hne ((hin p hp' hat).trans he)⟩

/-- A byte from 128 on begins the input: `End` is returned, and all that follows is
left. -/
theorem end_before_end : ¬ EndsAtEnd (.init "\u00e9 ls\n".toList) ∧
    parse (.init "\u00e9 ls\n".toList) = some ([⟨.pout, [], true⟩], ⟨.tend, [], " ls\n".toList, []⟩) := by
  have hparse : parse (.init "\u00e9 ls\n".toList) = some ([⟨.pout, [], true⟩], ⟨.tend, [], " ls\n".toList, []⟩) := by
    decide
  refine ⟨?_, hparse⟩
  intro h
  exact absurd (h _ _ hparse ⟨_, List.mem_singleton.mpr rfl, rfl⟩) (by decide)

end Shell
end Csc501

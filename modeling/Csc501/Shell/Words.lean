/-
# Where words end

In a shell's language a word is all that stands together: characters, characters
with a backslash in front of them and quoted parts, up to a blank, a newline or an
operator (`refWords`: the text is marked character by character, and cut at the
boundaries). `nextToken` takes a quoted part on into the word that it continues,
but the quote that closes it ends the word: of what stands directly behind it a
word of its own is made.

So the words that are read are the right ones exactly if each closing quote is
followed by a boundary or the end of the input (`words_reference_iff`); otherwise
they are too many.

Key definitions: `lexemes`, `Mark`, `marks`, `refWords`, `closes`, `Cut`, `Read`.
Key theorems: `scanWord_marks`, `nextToken_read`, `lexemesFrom_words`, `words_reference_iff`.
-/
import Csc501.Shell.Lex

namespace Csc501
namespace Shell

open Lib

/-- What `nextToken` returns, call after call, up to the end of the input. -/
def lexemesFrom : ℕ → Text → List Lexeme
  | 0, _ => []
  | n + 1, s =>
    if (nextToken s).token = .tend then [nextToken s] else nextToken s :: lexemesFrom n (nextToken s).rest

/-- All of them: there are no more than characters, and the end. -/
def lexemes (s : Text) : List Lexeme := lexemesFrom (s.length + 1) s

/-- The words among the tokens. -/
def Lexeme.words (ls : List Lexeme) : List Text := (ls.filter fun l => l.token = .tword).map Lexeme.word

/-! ### The words of the language -/

/-- A character of the input stands for itself in a word, marks a part of it as
quoted, or stands between words. -/
inductive Mark
  | text (c : Char)
  | quoting
  | boundary
  deriving DecidableEq, Repr

/-- A boundary, outside of quotes. -/
def isBoundary (c : Char) : Bool := isBlank c || endsWord c

def marks : Mode → Text → List Mark
  | _, [] => []
  | .plain, c :: s =>
    if isBoundary c then .boundary :: marks .plain s
    else if isQuote c then .quoting :: marks (.quoted c) s
    else if c = '\\' then .quoting :: marks .escaped s
    else .text c :: marks .plain s
  | .escaped, c :: s => .text c :: marks .plain s
  | .quoted q, c :: s => if c = q then .quoting :: marks .plain s else .text c :: marks (.quoted q) s

/-- The characters that stand for themselves. -/
def value (run : List Mark) : Text :=
  run.filterMap fun
    | .text c => some c
    | _ => none

/-- The words of a text: what stands between boundaries, with the quotes and the
backslashes that quote removed. -/
def refWords (s : Text) : List Text := (tokens .boundary (marks .plain s)).map value

/-- A boundary or the end of the input follows. -/
def atBoundary : Text → Bool
  | [] => true
  | c :: _ => isBoundary c

/-- Behind each closing quote a boundary follows. -/
def closes : Mode → Text → Bool
  | _, [] => true
  | .plain, c :: s =>
    if isBoundary c then closes .plain s
    else if isQuote c then closes (.quoted c) s
    else if c = '\\' then closes .escaped s
    else closes .plain s
  | .escaped, _ :: s => closes .plain s
  | .quoted q, c :: s => if c = q then atBoundary s && closes .plain s else closes (.quoted q) s

/-! ### One word -/

@[simp] theorem value_nil : value [] = [] := rfl

@[simp] theorem value_text (c : Char) (run : List Mark) : value (.text c :: run) = c :: value run := rfl

@[simp] theorem value_quoting (run : List Mark) : value (.quoting :: run) = value run := rfl

theorem length_marks : ∀ (m : Mode) (s : Text), (marks m s).length = s.length
  | _, [] => by simp [marks]
  | .plain, c :: s => by
    unfold marks
    split_ifs <;> simp [length_marks]
  | .escaped, c :: s => by simp [marks, length_marks]
  | .quoted q, c :: s => by
    unfold marks
    split_ifs <;> simp [length_marks]

/-- A character that is no boundary belongs to a word. -/
theorem marks_head {c : Char} (s : Text) (h : isBoundary c = false) :
    ∃ x, (marks .plain (c :: s)).head? = some x ∧ x ≠ .boundary := by
  simp only [marks, h, Bool.false_eq_true, if_false]
  split_ifs
  · exact ⟨_, rfl, by simp⟩
  · exact ⟨_, rfl, by simp⟩
  · exact ⟨_, rfl, by simp⟩

/-- How the marks of a text are cut where a word ends: at a boundary, which is
taken off, or in front of what follows. -/
inductive Cut (m : Mode) (s : Text) (run : List Mark) (rest : Text) : Prop
  | taken : marks m s = run ++ .boundary :: marks .plain rest → closes m s = closes .plain rest → Cut m s run rest
  | left : marks m s = run ++ marks .plain rest → closes m s = (atBoundary rest && closes .plain rest) →
      Cut m s run rest

/-- A mark in front of the cut. -/
theorem Cut.cons {m m' : Mode} {c : Char} {s rest : Text} {run : List Mark} {x : Mark} (h : Cut m' s run rest)
    (hm : marks m (c :: s) = x :: marks m' s) (hc : closes m (c :: s) = closes m' s) :
    Cut m (c :: s) (x :: run) rest := by
  cases h with
  | taken h1 h2 => exact .taken (by rw [hm, h1]; rfl) (hc.trans h2)
  | left h1 h2 => exact .left (by rw [hm, h1]; rfl) (hc.trans h2)

/-- **A word that is read is a run of marks** without a boundary in it. -/
theorem scanWord_marks : ∀ {m : Mode} {acc s w rest : Text}, scanWord m acc s = .word w rest →
    ∃ run, .boundary ∉ run ∧ w = acc ++ value run ∧ Cut m s run rest
  | .plain, acc, [], w, rest, h => absurd h (by simp [scanWord])
  | .escaped, acc, [], w, rest, h => absurd h (by simp [scanWord])
  | .quoted q, acc, [], w, rest, h => absurd h (by simp [scanWord])
  | .plain, acc, c :: s, w, rest, h => by
    unfold scanWord at h
    split_ifs at h with h1 h2 h3 h4 h5 h6
    · cases h
      have hb : isBoundary c = true := by simp [isBoundary, h2]
      exact ⟨[], by simp, by simp, .taken (by simp [marks, hb]) (by simp [closes, hb])⟩
    · cases h
      have hb : isBoundary c = true := by simp [isBoundary, h3]
      exact ⟨[], by simp, by simp, .left rfl (by simp [atBoundary, hb])⟩
    all_goals have hb : isBoundary c = false := by simp [isBoundary, h2, h3]
    · obtain ⟨run, hrun, hw, hcut⟩ := scanWord_marks h
      exact ⟨.quoting :: run, by simp [hrun], hw, hcut.cons (by simp [marks, hb, h4]) (by simp [closes, hb, h4])⟩
    · obtain ⟨run, hrun, hw, hcut⟩ := scanWord_marks h
      subst h5
      exact ⟨.quoting :: run, by simp [hrun], hw, hcut.cons rfl rfl⟩
    · obtain ⟨run, hrun, hw, hcut⟩ := scanWord_marks h
      exact ⟨.text c :: run, by simp [hrun], by simp [hw],
        hcut.cons (by simp [marks, hb, h4, h5]) (by simp [closes, hb, h4, h5])⟩
  | .escaped, acc, c :: s, w, rest, h => by
    unfold scanWord at h
    split_ifs at h
    obtain ⟨run, hrun, hw, hcut⟩ := scanWord_marks h
    exact ⟨.text c :: run, by simp [hrun], by simp [hw], hcut.cons (by simp [marks]) (by simp [closes])⟩
  | .quoted q, acc, c :: s, w, rest, h => by
    unfold scanWord at h
    split_ifs at h with h1 h2 h3
    · cases h
      exact ⟨[.quoting], by simp, by simp, .left (by simp [marks, h1]) (by simp [closes, h1])⟩
    · obtain ⟨run, hrun, hw, hcut⟩ := scanWord_marks h
      exact ⟨.text c :: run, by simp [hrun], by simp [hw], hcut.cons (by simp [marks, h1]) (by simp [closes, h1])⟩

/-! ### All words -/

theorem refWords_boundary {c : Char} (s : Text) (h : isBoundary c = true) : refWords (c :: s) = refWords s := by
  simp only [refWords, marks, h, if_true, tokens_cons_self]

theorem closes_boundary {c : Char} (s : Text) (h : isBoundary c = true) : closes .plain (c :: s) = closes .plain s := by
  simp only [closes, h, if_true]

/-- How the words of a text go on behind its first token. -/
inductive Read (s : Text) (l : Lexeme) : Prop
  | last : l.token = .tend → refWords s = [] → closes .plain s = true → Read s l
  | other : l.token ≠ .tend → l.token ≠ .tword → refWords s = refWords l.rest →
      closes .plain s = closes .plain l.rest → Read s l
  | word : l.token = .tword → refWords s = l.word :: refWords l.rest → closes .plain s = closes .plain l.rest → Read s l
  -- a quote has ended the word too early
  | parted : l.token = .tword → (refWords s).length = (refWords l.rest).length → closes .plain s = false → Read s l

theorem Read.boundary {c : Char} {s : Text} {l : Lexeme} (h : Read s l) (hc : isBoundary c = true) :
    Read (c :: s) l := by
  have h1 := refWords_boundary s hc
  have h2 := closes_boundary s hc
  cases h with
  | last ht hr hq => exact .last ht (h1.trans hr) (h2.trans hq)
  | other ht hw hr hq => exact .other ht hw (h1.trans hr) (h2.trans hq)
  | word ht hr hq => exact .word ht (h1.trans hr) (h2.trans hq)
  | parted ht hr hq => exact .parted ht (by rw [h1, hr]) (h2.trans hq)

/-- A word, cut off the text. -/
theorem Cut.read {s w rest : Text} {run : List Mark} (hne : run ≠ []) (hrun : .boundary ∉ run) (hw : w = value run)
    (h : Cut .plain s run rest) : Read s ⟨.tword, w, rest, []⟩ := by
  cases h with
  | taken h1 h2 =>
    refine .word rfl ?_ h2
    rw [refWords, h1, tokens_word_cons hne hrun, List.map_cons, hw]
    rfl
  | left h1 h2 =>
    cases rest with
    | nil =>
      refine .word rfl ?_ (by simpa [atBoundary] using h2)
      rw [refWords, h1, marks, List.append_nil, tokens_word hne hrun, hw]
      simp [refWords, marks]
    | cons c rest =>
      cases hc : isBoundary c with
      | true =>
        refine .word rfl ?_ (by simpa [atBoundary, hc] using h2)
        have hm : marks .plain (c :: rest) = .boundary :: marks .plain rest := by simp [marks, hc]
        rw [refWords_boundary rest hc, refWords, h1, hm, tokens_word_cons hne hrun, List.map_cons, hw]
        rfl
      | false =>
        refine .parted rfl ?_ (by simpa [atBoundary, hc] using h2)
        -- what follows goes on with the run
        obtain ⟨x, hx⟩ := marks_head rest hc
        obtain ⟨y, hy⟩ : ∃ y, run.getLast? = some y := by
          rw [← Option.isSome_iff_exists, List.getLast?_isSome]
          exact hne
        have hy' : y ≠ .boundary := by
          rintro rfl
          exact hrun (List.mem_of_getLast? hy)
        have hcut := length_tokens_append_of_inside hy hy' hx.1 hx.2
        rw [← h1, tokens_word hne hrun] at hcut
        simp only [refWords, List.length_map, List.length_singleton] at hcut ⊢
        omega

theorem isBoundary_of_endsWord {c : Char} (h : endsWord c = true) : isBoundary c = true := by
  simp [isBoundary, h]

theorem operatorLexeme_read {token tokenErr : Token} {s : Text} (h1 : token ≠ .tend ∧ token ≠ .tword)
    (h2 : tokenErr ≠ .tend ∧ tokenErr ≠ .tword) (he : (operatorLexeme token tokenErr s).token ≠ .terror) :
    Read s (operatorLexeme token tokenErr s) := by
  cases s with
  | nil => exact absurd rfl he
  | cons c s =>
    simp only [operatorLexeme] at he ⊢
    split_ifs at he ⊢ with hn hc
    · exact absurd rfl he
    · have hb : isBoundary c = true := isBoundary_of_endsWord (by rw [hc]; rfl)
      exact .other h2.1 h2.2 (refWords_boundary s hb) (closes_boundary s hb)
    · exact .other h1.1 h1.2 rfl rfl

theorem outLexeme_read {s : Text} (he : (outLexeme s).token ≠ .terror) : Read s (outLexeme s) := by
  cases s with
  | nil => exact absurd rfl he
  | cons c s =>
    simp only [outLexeme] at he ⊢
    split_ifs at he ⊢ with hn h1 h2
    · exact absurd rfl he
    · have hb : isBoundary c = true := isBoundary_of_endsWord (by rw [h1]; rfl)
      exact (operatorLexeme_read (by decide) (by decide) he).boundary hb
    · have hb : isBoundary c = true := isBoundary_of_endsWord (by rw [h2]; rfl)
      exact .other (by simp [Lexeme.of]) (by simp [Lexeme.of]) (refWords_boundary s hb) (closes_boundary s hb)
    · exact .other (by simp [Lexeme.of]) (by simp [Lexeme.of]) rfl rfl

/-- **One call of `nextToken`** and the words. -/
theorem nextToken_read : ∀ {s : Text}, Ascii s → (nextToken s).token ≠ .terror → Read s (nextToken s)
  | [], _, _ => .last rfl (by simp [refWords, marks]) rfl
  | c :: s, ha, he => by
    have hs := nextToken_starts c s
    generalize hl : nextToken (c :: s) = l at hs he
    cases hs with
    | negative hn => exact absurd hn (by simp [ha.head])
    | blank hc =>
      have hb : isBoundary c = true := by rcases hc with rfl | rfl <;> rfl
      exact (nextToken_read ha.tail he).boundary hb
    | newline hc =>
      have hb : isBoundary c = true := by rw [hc]; rfl
      exact .other (by simp [Lexeme.of]) (by simp [Lexeme.of]) (refWords_boundary s hb) (closes_boundary s hb)
    | operator t ht hc =>
      have hb : isBoundary c = true := by rcases hc with rfl | rfl | rfl <;> rfl
      have hop : t = .tamp ∨ t = .tsemi ∨ t = .tin := by
        have htok := congrArg Lexeme.token hl
        rcases hc with rfl | rfl | rfl
        · exact .inl htok.symm
        · exact .inr (.inl htok.symm)
        · exact .inr (.inr htok.symm)
      have hword : t ≠ .tend ∧ t ≠ .tword := by rcases hop with rfl | rfl | rfl <;> decide
      exact .other hword.1 hword.2 (refWords_boundary s hb) (closes_boundary s hb)
    | pipe hc =>
      have hb : isBoundary c = true := by rw [hc]; rfl
      exact (operatorLexeme_read (by decide) (by decide) he).boundary hb
    | out hc =>
      have hb : isBoundary c = true := by rw [hc]; rfl
      exact (outLexeme_read he).boundary hb
    | word h1 h2 h3 =>
      cases hx : scanWord .plain [] (c :: s) with
      | word w rest =>
        obtain ⟨run, hrun, hw, hcut⟩ := scanWord_marks hx
        have hsuf := scanWord_cons s h1 h2 h3
        rw [hx] at hsuf
        have hlen : rest.length ≤ s.length := hsuf.length_le
        have hc : isBoundary c = false := by simp [isBoundary, h2, h3]
        have hne : run ≠ [] := by
          rintro rfl
          cases hcut with
          | taken hm _ =>
            obtain ⟨x, hx', hb⟩ := marks_head s hc
            rw [hm] at hx'
            exact hb (Option.some.inj hx').symm
          | left hm _ =>
            have hsame := congrArg List.length hm
            simp only [List.nil_append, length_marks, List.length_cons] at hsame
            omega
        exact hcut.read hne hrun (by simpa using hw)
      | cut rest => rw [hx] at he; exact absurd rfl he
      | unmatched q rest => rw [hx] at he; exact absurd rfl he
      | tooLong m rest => rw [hx] at he; cases m <;> exact absurd rfl he

/-- **All calls**: the words are the right ones, or they are too many. -/
theorem lexemesFrom_words : ∀ {n : ℕ} {s : Text}, Ascii s → s.length < n →
    (∀ l ∈ lexemesFrom n s, l.token ≠ .terror) →
    closes .plain s = true ∧ Lexeme.words (lexemesFrom n s) = refWords s ∨
      closes .plain s = false ∧ (refWords s).length < (Lexeme.words (lexemesFrom n s)).length
  | 0, s, _, hn, _ => absurd hn (Nat.not_lt_zero _)
  | n + 1, s, ha, hn, hok => by
    have hsuf := nextToken_suffix s
    have hfirst : (nextToken s).token ≠ .terror := by
      apply hok
      unfold lexemesFrom
      split_ifs
      · exact List.mem_singleton_self _
      · exact List.mem_cons_self
    have hread := nextToken_read ha hfirst
    -- what follows, if the input is not over
    have hrest : (nextToken s).token ≠ .tend →
        lexemesFrom (n + 1) s = nextToken s :: lexemesFrom n (nextToken s).rest ∧
        (closes .plain (nextToken s).rest = true ∧
            Lexeme.words (lexemesFrom n (nextToken s).rest) = refWords (nextToken s).rest ∨
          closes .plain (nextToken s).rest = false ∧
            (refWords (nextToken s).rest).length < (Lexeme.words (lexemesFrom n (nextToken s).rest)).length) := by
      intro htok
      have heq : lexemesFrom (n + 1) s = nextToken s :: lexemesFrom n (nextToken s).rest := by
        rw [lexemesFrom, if_neg htok]
      have hne : s ≠ [] := by
        rintro rfl
        exact htok rfl
      have hlt := length_nextToken hne
      refine ⟨heq, lexemesFrom_words (ha.suffix (hsuf.trans (List.tail_suffix s))) (by omega) ?_⟩
      intro l hl
      exact hok l (heq ▸ List.mem_cons_of_mem _ hl)
    cases hread with
    | last ht hr hq =>
      left
      rw [lexemesFrom, if_pos ht, hr]
      exact ⟨hq, by simp [Lexeme.words, ht]⟩
    | other ht hw hr hq =>
      obtain ⟨heq, hind⟩ := hrest ht
      have hwords : Lexeme.words (lexemesFrom (n + 1) s) = Lexeme.words (lexemesFrom n (nextToken s).rest) := by
        rw [heq]
        simp [Lexeme.words, hw]
      rw [hwords, hr, hq]
      exact hind
    | word ht hr hq =>
      obtain ⟨heq, hind⟩ := hrest (by simp [ht])
      have hwords : Lexeme.words (lexemesFrom (n + 1) s) =
          (nextToken s).word :: Lexeme.words (lexemesFrom n (nextToken s).rest) := by
        rw [heq]
        simp [Lexeme.words, ht]
      rw [hwords, hr, hq]
      rcases hind with ⟨h1, h2⟩ | ⟨h1, h2⟩
      · exact .inl ⟨h1, by rw [h2]⟩
      · exact .inr ⟨h1, by simpa using h2⟩
    | parted ht hr hq =>
      obtain ⟨heq, hind⟩ := hrest (by simp [ht])
      right
      refine ⟨hq, ?_⟩
      have hwords : (Lexeme.words (lexemesFrom (n + 1) s)).length =
          (Lexeme.words (lexemesFrom n (nextToken s).rest)).length + 1 := by
        rw [heq]
        simp [Lexeme.words, ht]
      have hle : (refWords (nextToken s).rest).length ≤
          (Lexeme.words (lexemesFrom n (nextToken s).rest)).length := by
        rcases hind with ⟨-, h2⟩ | ⟨-, h2⟩
        · rw [h2]
        · exact h2.le
      omega

/-- **The words that are read are those of the language** exactly if each closing
quote is followed by a boundary. -/
theorem words_reference_iff {s : Text} (ha : Ascii s) (hok : ∀ l ∈ lexemes s, l.token ≠ .terror) :
    Lexeme.words (lexemes s) = refWords s ↔ closes .plain s = true := by
  have h := lexemesFrom_words ha (Nat.lt_succ_self s.length) hok
  refine ⟨?_, ?_⟩
  · intro heq
    rcases h with ⟨hq, -⟩ | ⟨-, hlt⟩
    · exact hq
    · exact absurd (congrArg List.length heq) hlt.ne'
  · intro hq
    rcases h with ⟨-, heq⟩ | ⟨hq', -⟩
    · exact heq
    · exact absurd (hq.symm.trans hq') (by simp)

/-- What stands behind a quoted part is taken for another word; what stands in
front of one is not. -/
theorem word_parted : Ascii "'a'b\n".toList ∧ (∀ l ∈ lexemes "'a'b\n".toList, l.token ≠ .terror) ∧
    Lexeme.words (lexemes "'a'b\n".toList) = ["a".toList, "b".toList] ∧ refWords "'a'b\n".toList = ["ab".toList] ∧
    Lexeme.words (lexemes "b'a'\n".toList) = ["ba".toList] := by
  decide

theorem words_reference_iff_quoted : Ascii "b'a' \"c|d\" e\n".toList ∧
    (∀ l ∈ lexemes "b'a' \"c|d\" e\n".toList, l.token ≠ .terror) ∧
    Lexeme.words (lexemes "b'a' \"c|d\" e\n".toList) = refWords "b'a' \"c|d\" e\n".toList := by
  have ha : Ascii "b'a' \"c|d\" e\n".toList := by decide
  have hok : ∀ l ∈ lexemes "b'a' \"c|d\" e\n".toList, l.token ≠ .terror := by decide
  exact ⟨ha, hok, (words_reference_iff ha hok).mpr (by decide)⟩

end Shell
end Csc501

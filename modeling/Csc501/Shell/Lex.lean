/-
# The tokens of the shell

`nextToken` of `hw2/parse.c` on the bytes of standard input, one character for
each: it skips blanks, takes an operator or a word, and leaves the rest. A word
ends at a blank or an operator, or with the quote that closes a quoted part; a
backslash in front of a character keeps it from meaning anything. A `char` is
signed, so a byte from 128 on is taken for the end of the input, and is gone
then. The buffer `Word` holds 63 bytes; a word that is longer is an error, and
what follows up to the next newline or NUL is skipped.

Where a line ends is said apart from all this (`dropLine`): at the first newline
that is not escaped. Up to the token that ends the line the two agree
(`nextToken_inside`, `nextToken_end`), unless a word was too long: the skipping
knows no escapes (`breaks`).

Key definitions: `Token`, `Mode`, `scanWord`, `nextToken`, `Starts`, `dropLine`, `overlong`,
`breaks`.
Key theorems: `length_nextToken`, `scanWord_line`, `nextToken_starts`, `nextToken_inside`,
`nextToken_end`, `skipRest_eq_dropLine`.
-/
import Csc501.Lib.CText

namespace Csc501
namespace Shell

open Lib

/-! ### Tokens -/

/-- `Token`. -/
inductive Token
  | terror
  | tword
  | tamp
  | tpipe
  | tsemi
  | tin
  | tout
  | tapp
  | tpipeErr
  | toutErr
  | tappErr
  | tnl
  | tnil
  | tend
  deriving DecidableEq, Repr

namespace Token

/-- `InCmd`. -/
def inCmd : Token → Bool
  | tword | tin | tout | tapp | toutErr | tappErr => true
  | _ => false

/-- `PipeToken`. -/
def pipeToken : Token → Bool
  | tpipe | tpipeErr => true
  | _ => false

/-- `CmdToken`. -/
def cmdToken : Token → Bool
  | tsemi | tamp => true
  | _ => false

/-- The tokens that send the output to a file. -/
def toFile : Token → Bool
  | tout | tapp | toutErr | tappErr => true
  | _ => false

/-- `EndOfInput`. -/
def endOfInput : Token → Bool
  | tend | tnl | terror => true
  | _ => false

/-- What the loop over a command tells apart. -/
theorem inCmd_cases (t : Token) : t = tin ∨ t.toFile = true ∨ t = tword ∨ t.inCmd = false := by
  cases t <;> decide

end Token

/-- `BUF_SIZE`. -/
def bufSize : ℕ := 63

/-- A byte that is negative as a `char`, like `EOF`. -/
def isNegative (c : Char) : Bool := 128 ≤ c.toNat

def isBlank (c : Char) : Bool := c = ' ' || c = '\t'

def isQuote (c : Char) : Bool := c = '\'' || c = '"'

/-- The characters that end a word and are put back. -/
def endsWord (c : Char) : Bool := c = '\n' || c = '&' || c = ';' || c = '<' || c = '|' || c = '>'

/-- Where in a word the reading is. -/
inductive Mode
  | plain
  | escaped
  | quoted (q : Char)
  deriving DecidableEq, Repr

/-- How the reading of a word ends: with the word, without a next character to
read, without the closing quote, or with one byte too many. -/
inductive Scan
  | word (w rest : Text)
  | cut (rest : Text)
  | unmatched (q : Char) (rest : Text)
  | tooLong (m : Mode) (rest : Text)
  deriving DecidableEq, Repr

/-- The loops of `nextToken` over a word, with `p` behind the bytes `acc`. -/
def scanWord : Mode → Text → Text → Scan
  | .quoted q, _, [] => .unmatched q []
  | _, _, [] => .cut []
  | .plain, acc, c :: s =>
    if isNegative c then .cut s
    else if isBlank c then .word acc s
    else if endsWord c then .word acc (c :: s)
    else if isQuote c then scanWord (.quoted c) acc s
    else if c = '\\' then scanWord .escaped acc s
    else if acc.length < bufSize then scanWord .plain (acc ++ [c]) s
    else .tooLong .plain s
  | .escaped, acc, c :: s =>
    if isNegative c then .cut s
    else if acc.length < bufSize then scanWord .plain (acc ++ [c]) s
    else .tooLong .plain s
  | .quoted q, acc, c :: s =>
    if c = q then .word acc s
    else if isNegative c || c = '\n' then .unmatched q s
    else if acc.length < bufSize then scanWord (.quoted q) (acc ++ [c]) s
    else .tooLong (.quoted q) s

/-- `while ((c = getchar()) > 0 && c != '\n')`. -/
def skipRest : Text → Text
  | [] => []
  | c :: s => if isNegative c || c = '\x00' || c = '\n' then s else skipRest s

/-- What a call of `nextToken` returns, leaves in `Word`, leaves of the input and
prints. -/
structure Lexeme where
  token : Token
  word : Text
  rest : Text
  printed : Text
  deriving DecidableEq, Repr

/-- A token that is no word. -/
def Lexeme.of (token : Token) (rest : Text) : Lexeme := ⟨token, [], rest, []⟩

/-- Behind a `|` or a `>>`: with an `&` it is another operator, and without a next
character, which `ReadChar` wants, it is none. -/
def operatorLexeme (token tokenErr : Token) : Text → Lexeme
  | [] => .of .terror []
  | c :: s =>
    if isNegative c then .of .terror s
    else if c = '&' then .of tokenErr s
    else .of token (c :: s)

/-- Behind a `>`. -/
def outLexeme : Text → Lexeme
  | [] => .of .terror []
  | c :: s =>
    if isNegative c then .of .terror s
    else if c = '>' then operatorLexeme .tapp .tappErr s
    else if c = '&' then .of .toutErr s
    else .of .tout (c :: s)

/-- Behind a word. -/
def wordLexeme : Scan → Lexeme
  | .word w rest => ⟨.tword, w, rest, []⟩
  | .cut rest => .of .terror rest
  | .unmatched q rest => ⟨.terror, [], rest, "Unmatched ".toList ++ [q, '\n']⟩
  | .tooLong (.quoted _) rest => ⟨.terror, [], skipRest rest, "String too long (> 63 bytes)\n".toList⟩
  | .tooLong _ rest => ⟨.terror, [], skipRest rest, "Word too long (> 63 bytes)\n".toList⟩

/-- `nextToken`. The first character of a word, the cases before it once
excluded, is treated like those that follow. -/
def nextToken : Text → Lexeme
  | [] => .of .tend []
  | c :: s =>
    if isNegative c then .of .tend s
    else if isBlank c then nextToken s
    else if c = '\n' then .of .tnl s
    else if c = '&' then .of .tamp s
    else if c = ';' then .of .tsemi s
    else if c = '<' then .of .tin s
    else if c = '|' then operatorLexeme .tpipe .tpipeErr s
    else if c = '>' then outLexeme s
    else wordLexeme (scanWord .plain [] (c :: s))

/-! ### Lines -/

/-- How a character is read in a line; `none` for the newline that ends it. -/
def Mode.after : Mode → Char → Option Mode
  | .plain, c =>
    if c = '\n' then none
    else if c = '\\' then some .escaped
    else if isQuote c then some (.quoted c)
    else some .plain
  | .escaped, _ => some .plain
  | .quoted q, c =>
    if c = q then some .plain
    else if c = '\n' then none
    else some (.quoted q)

/-- What follows the line, from inside it. -/
def dropLine : Mode → Text → Text
  | _, [] => []
  | m, c :: s =>
    match m.after c with
    | none => s
    | some m => dropLine m s

/-- Where the next token, if it is too long a word, is left: how it is read
there, and the text behind its 64th byte. -/
def overlong : Text → Option (Mode × Text)
  | [] => none
  | c :: s =>
    if isNegative c then none
    else if isBlank c then overlong s
    else if endsWord c then none
    else
      match scanWord .plain [] (c :: s) with
      | .tooLong m rest => some (m, rest)
      | _ => none

/-- The skipping stops before the end of the line, at a NUL or at an escaped
newline, and something follows. -/
def breaks : Mode → Text → Bool
  | _, [] => false
  | m, c :: s =>
    match m.after c with
    | none => false
    | some m' => if c = '\x00' || c = '\n' then !s.isEmpty else breaks m' s

/-- No byte is negative. -/
def Ascii (s : Text) : Prop := ∀ c ∈ s, isNegative c = false

instance (s : Text) : Decidable (Ascii s) := List.decidableBAll _ _

theorem Ascii.tail {c : Char} {s : Text} (h : Ascii (c :: s)) : Ascii s := fun x hx => h x (List.mem_cons_of_mem _ hx)

theorem Ascii.head {c : Char} {s : Text} (h : Ascii (c :: s)) : isNegative c = false := h c List.mem_cons_self

theorem Ascii.suffix {s t : Text} (h : Ascii s) (ht : t <:+ s) : Ascii t := fun x hx => h x (ht.subset hx)

/-! ### A token is taken off the input -/

/-- What a scan leaves of the input. -/
def Scan.rest : Scan → Text
  | .word _ rest | .cut rest | .unmatched _ rest | .tooLong _ rest => rest

theorem scanWord_suffix : ∀ (m : Mode) (acc s : Text), (scanWord m acc s).rest <:+ s
  | m, acc, [] => by cases m <;> exact List.suffix_rfl
  | .plain, acc, c :: s => by
    unfold scanWord
    split_ifs
    · exact List.suffix_cons c s
    · exact List.suffix_cons c s
    · exact List.suffix_rfl
    · exact (scanWord_suffix _ _ s).trans (List.suffix_cons c s)
    · exact (scanWord_suffix _ _ s).trans (List.suffix_cons c s)
    · exact (scanWord_suffix _ _ s).trans (List.suffix_cons c s)
    · exact List.suffix_cons c s
  | .escaped, acc, c :: s => by
    unfold scanWord
    split_ifs
    · exact List.suffix_cons c s
    · exact (scanWord_suffix _ _ s).trans (List.suffix_cons c s)
    · exact List.suffix_cons c s
  | .quoted q, acc, c :: s => by
    unfold scanWord
    split_ifs
    · exact List.suffix_cons c s
    · exact List.suffix_cons c s
    · exact (scanWord_suffix _ _ s).trans (List.suffix_cons c s)
    · exact List.suffix_cons c s

theorem skipRest_suffix : ∀ s : Text, skipRest s <:+ s
  | [] => List.suffix_rfl
  | c :: s => by
    unfold skipRest
    split_ifs
    · exact List.suffix_cons c s
    · exact (skipRest_suffix s).trans (List.suffix_cons c s)

/-- A word that begins with `c` takes it off the input. -/
theorem scanWord_cons {c : Char} (s : Text) (h1 : isNegative c = false) (h2 : isBlank c = false)
    (h3 : endsWord c = false) : (scanWord .plain [] (c :: s)).rest <:+ s := by
  unfold scanWord
  rw [h1, h2, h3]
  simp only [Bool.false_eq_true, if_false]
  split_ifs
  · exact scanWord_suffix _ _ s
  · exact scanWord_suffix _ _ s
  · exact scanWord_suffix _ _ s
  · exact List.suffix_rfl

theorem wordLexeme_rest (x : Scan) : (wordLexeme x).rest <:+ x.rest := by
  cases x with
  | word w rest => exact List.suffix_rfl
  | cut rest => exact List.suffix_rfl
  | unmatched q rest => exact List.suffix_rfl
  | tooLong m rest => cases m <;> exact skipRest_suffix rest

theorem operatorLexeme_suffix (token tokenErr : Token) (s : Text) : (operatorLexeme token tokenErr s).rest <:+ s := by
  cases s with
  | nil => exact List.suffix_rfl
  | cons c s =>
    simp only [operatorLexeme]
    split_ifs
    · exact List.suffix_cons c s
    · exact List.suffix_cons c s
    · exact List.suffix_rfl

theorem outLexeme_suffix (s : Text) : (outLexeme s).rest <:+ s := by
  cases s with
  | nil => exact List.suffix_rfl
  | cons c s =>
    simp only [outLexeme]
    split_ifs
    · exact List.suffix_cons c s
    · exact (operatorLexeme_suffix _ _ s).trans (List.suffix_cons c s)
    · exact List.suffix_cons c s
    · exact List.suffix_rfl

/-- What the first character decides. -/
inductive Starts (c : Char) (s : Text) : Lexeme → Prop
  | negative : isNegative c = true → Starts c s (.of .tend s)
  | blank : c = ' ' ∨ c = '\t' → Starts c s (nextToken s)
  | newline : c = '\n' → Starts c s (.of .tnl s)
  | operator (t : Token) : t.endOfInput = false → c = '&' ∨ c = ';' ∨ c = '<' → Starts c s (.of t s)
  | pipe : c = '|' → Starts c s (operatorLexeme .tpipe .tpipeErr s)
  | out : c = '>' → Starts c s (outLexeme s)
  | word : isNegative c = false → isBlank c = false → endsWord c = false →
      Starts c s (wordLexeme (scanWord .plain [] (c :: s)))

theorem nextToken_starts (c : Char) (s : Text) : Starts c s (nextToken (c :: s)) := by
  unfold nextToken
  by_cases h1 : isNegative c = true
  · rw [if_pos h1]
    exact .negative h1
  rw [if_neg h1]
  by_cases h2 : isBlank c = true
  · rw [if_pos h2]
    exact .blank (by simpa [isBlank] using h2)
  rw [if_neg h2]
  by_cases h3 : c = '\n'
  · rw [if_pos h3]
    exact .newline h3
  rw [if_neg h3]
  by_cases h4 : c = '&'
  · rw [if_pos h4]
    exact .operator .tamp rfl (.inl h4)
  rw [if_neg h4]
  by_cases h5 : c = ';'
  · rw [if_pos h5]
    exact .operator .tsemi rfl (.inr (.inl h5))
  rw [if_neg h5]
  by_cases h6 : c = '<'
  · rw [if_pos h6]
    exact .operator .tin rfl (.inr (.inr h6))
  rw [if_neg h6]
  by_cases h7 : c = '|'
  · rw [if_pos h7]
    exact .pipe h7
  rw [if_neg h7]
  by_cases h8 : c = '>'
  · rw [if_pos h8]
    exact .out h8
  rw [if_neg h8]
  exact .word (Bool.eq_false_iff.mpr h1) (Bool.eq_false_iff.mpr h2) (by simp [endsWord, h3, h4, h5, h6, h7, h8])

/-- **A call of `nextToken` reads one character at least**, if there is one. -/
theorem nextToken_suffix : ∀ s : Text, (nextToken s).rest <:+ s.tail
  | [] => List.suffix_rfl
  | c :: s => by
    have h := nextToken_starts c s
    generalize nextToken (c :: s) = l at h
    cases h with
    | negative _ => exact List.suffix_rfl
    | blank _ => exact (nextToken_suffix s).trans (List.tail_suffix s)
    | newline _ => exact List.suffix_rfl
    | operator t _ _ => exact List.suffix_rfl
    | pipe _ => exact operatorLexeme_suffix _ _ s
    | out _ => exact outLexeme_suffix s
    | word h1 h2 h3 => exact (wordLexeme_rest _).trans (scanWord_cons s h1 h2 h3)

theorem length_nextToken {s : Text} (h : s ≠ []) : (nextToken s).rest.length < s.length := by
  have hle := (nextToken_suffix s).length_le
  rw [List.length_tail] at hle
  have hpos := List.length_pos_iff.mpr h
  omega

/-! ### Tokens and lines -/

theorem dropLine_of_after {m m' : Mode} {c : Char} (s : Text) (h : m.after c = some m') :
    dropLine m (c :: s) = dropLine m' s := by
  simp only [dropLine, h]

theorem dropLine_suffix : ∀ (m : Mode) (s : Text), dropLine m s <:+ s
  | _, [] => List.suffix_rfl
  | m, c :: s => by
    rw [dropLine]
    cases m.after c with
    | none => exact List.suffix_cons c s
    | some m' => exact (dropLine_suffix m' s).trans (List.suffix_cons c s)

theorem after_plain {c : Char} (h1 : c ≠ '\n') (h2 : isQuote c = false) (h3 : c ≠ '\\') :
    Mode.plain.after c = some .plain := by
  simp [Mode.after, h1, h2, h3]

/-- A character that is neither a quote nor a backslash, nor ends the line. -/
theorem dropLine_plain {c : Char} (s : Text) (h1 : c ≠ '\n') (h2 : isQuote c = false) (h3 : c ≠ '\\') :
    dropLine .plain (c :: s) = dropLine .plain s := dropLine_of_after s (after_plain h1 h2 h3)

/-- What a scan says about the end of the line it is in. -/
def Scan.Line (line : Text) : Scan → Prop
  | .word _ rest => line = dropLine .plain rest
  | .cut rest => rest = [] ∧ line = []
  | .unmatched _ rest => line = rest
  | .tooLong m rest => line = dropLine m rest

/-- **A word is read as the line is.** -/
theorem scanWord_line : ∀ (m : Mode) (acc s : Text), Ascii s → (scanWord m acc s).Line (dropLine m s)
  | .plain, _, [], _ => ⟨rfl, rfl⟩
  | .escaped, _, [], _ => ⟨rfl, rfl⟩
  | .quoted q, _, [], _ => rfl
  | .plain, acc, c :: s, h => by
    have hneg := h.head
    unfold scanWord
    split_ifs with h1 h2 h3 h4 h5 h6
    · exact absurd h1 (by simp [hneg])
    · have hc : c = ' ' ∨ c = '\t' := by simpa [isBlank] using h2
      rcases hc with rfl | rfl
      · exact rfl
      · exact rfl
    · exact rfl
    · have hnl : c ≠ '\n' := by
        rintro rfl
        exact h3 (by decide)
      have hbs : c ≠ '\\' := by
        rintro rfl
        exact absurd h4 (by decide)
      rw [dropLine_of_after s (show Mode.plain.after c = some (.quoted c) by simp [Mode.after, hnl, hbs, h4])]
      exact scanWord_line _ _ s h.tail
    · subst h5
      exact scanWord_line .escaped acc s h.tail
    · have hnl : c ≠ '\n' := by
        rintro rfl
        exact h3 (by decide)
      rw [dropLine_plain s hnl (by simpa using h4) h5]
      exact scanWord_line _ _ s h.tail
    · have hnl : c ≠ '\n' := by
        rintro rfl
        exact h3 (by decide)
      exact dropLine_plain s hnl (by simpa using h4) h5
  | .escaped, acc, c :: s, h => by
    have hneg := h.head
    unfold scanWord
    split_ifs with h1 h2
    · exact absurd h1 (by simp [hneg])
    · exact scanWord_line .plain _ s h.tail
    · exact rfl
  | .quoted q, acc, c :: s, h => by
    have hneg := h.head
    unfold scanWord
    split_ifs with h1 h2 h3
    · exact dropLine_of_after s (by simp [Mode.after, h1])
    · have hc : c = '\n' := by simpa [hneg] using h2
      simp only [Scan.Line, dropLine, Mode.after, if_neg h1, if_pos hc]
    all_goals
      have hc : c ≠ '\n' := by simpa [hneg] using h2
      have hstay : (Mode.quoted q).after c = some (.quoted q) := by simp [Mode.after, h1, hc]
      rw [dropLine_of_after s hstay]
    · exact scanWord_line _ _ s h.tail
    · rfl

theorem operatorLexeme_inside {token tokenErr : Token} {s : Text} (h : Ascii s)
    (he : (operatorLexeme token tokenErr s).token.endOfInput = false) :
    dropLine .plain s = dropLine .plain (operatorLexeme token tokenErr s).rest := by
  cases s with
  | nil => simp [operatorLexeme, Lexeme.of, Token.endOfInput] at he
  | cons c s =>
    have hneg := h.head
    simp only [operatorLexeme, hneg, Bool.false_eq_true, if_false]
    split_ifs with h1
    · subst h1
      rfl
    · rfl

theorem outLexeme_inside {s : Text} (h : Ascii s) (he : (outLexeme s).token.endOfInput = false) :
    dropLine .plain s = dropLine .plain (outLexeme s).rest := by
  cases s with
  | nil => simp [outLexeme, Lexeme.of, Token.endOfInput] at he
  | cons c s =>
    have hneg := h.head
    simp only [outLexeme, hneg, Bool.false_eq_true, if_false] at he ⊢
    split_ifs at he ⊢ with h1 h2
    · subst h1
      exact operatorLexeme_inside h.tail he
    · subst h2
      rfl
    · rfl

/-- A character that stands for itself in a line. -/
theorem dropLine_of_eq {c x : Char} (s : Text) (hc : c = x) (h1 : x ≠ '\n') (h2 : isQuote x = false) (h3 : x ≠ '\\') :
    dropLine .plain (c :: s) = dropLine .plain s := by
  subst hc
  exact dropLine_plain s h1 h2 h3

theorem dropLine_blank {c : Char} (s : Text) (hc : c = ' ' ∨ c = '\t') :
    dropLine .plain (c :: s) = dropLine .plain s := by
  rcases hc with hc | hc
  · exact dropLine_of_eq s hc (by decide) (by decide) (by decide)
  · exact dropLine_of_eq s hc (by decide) (by decide) (by decide)

/-- **A token that does not end the line leaves the rest of the line.** -/
theorem nextToken_inside : ∀ {s : Text}, Ascii s → (nextToken s).token.endOfInput = false →
    dropLine .plain s = dropLine .plain (nextToken s).rest
  | [], _, he => by simp [nextToken, Lexeme.of, Token.endOfInput] at he
  | c :: s, h, he => by
    have hline := scanWord_line .plain [] (c :: s) h
    have hs := nextToken_starts c s
    generalize nextToken (c :: s) = l at hs he
    cases hs with
    | negative hn => exact absurd hn (by simp [h.head])
    | blank hc => exact (dropLine_blank s hc).trans (nextToken_inside h.tail he)
    | newline _ => simp [Lexeme.of, Token.endOfInput] at he
    | operator t _ hc =>
      rcases hc with hc | hc | hc
      · exact dropLine_of_eq s hc (by decide) (by decide) (by decide)
      · exact dropLine_of_eq s hc (by decide) (by decide) (by decide)
      · exact dropLine_of_eq s hc (by decide) (by decide) (by decide)
    | pipe hc =>
      rw [dropLine_of_eq s hc (by decide) (by decide) (by decide)]
      exact operatorLexeme_inside h.tail he
    | out hc =>
      rw [dropLine_of_eq s hc (by decide) (by decide) (by decide)]
      exact outLexeme_inside h.tail he
    | word _ _ _ =>
      generalize scanWord .plain [] (c :: s) = x at hline he
      cases x with
      | word w rest => exact hline
      | cut rest => exact absurd he (by simp [wordLexeme, Lexeme.of, Token.endOfInput])
      | unmatched q rest => exact absurd he (by simp [wordLexeme, Token.endOfInput])
      | tooLong m rest => cases m <;> exact absurd he (by simp [wordLexeme, Token.endOfInput])

theorem Mode.after_none {m : Mode} {c : Char} (h : m.after c = none) : c = '\n' := by
  by_contra hne
  cases m with
  | plain =>
    simp only [Mode.after, if_neg hne] at h
    split_ifs at h
  | escaped => exact absurd h (by simp [Mode.after])
  | quoted q =>
    simp only [Mode.after, if_neg hne] at h
    split_ifs at h

/-- The skipping ends with the line, unless it breaks off. -/
theorem skipRest_eq_dropLine : ∀ {m : Mode} {s : Text}, Ascii s → breaks m s = false → skipRest s = dropLine m s
  | _, [], _, _ => rfl
  | m, c :: s, h, hb => by
    have hneg := h.head
    unfold breaks at hb
    unfold skipRest dropLine
    cases hm : m.after c with
    | none =>
      simp [Mode.after_none hm]
    | some m' =>
      simp only [hm, hneg, Bool.false_or] at hb ⊢
      split_ifs at hb ⊢ with hc
      · have hs : s = [] := by simpa using hb
        rw [hs]
        rfl
      · exact skipRest_eq_dropLine h.tail hb

theorem operatorLexeme_end {token tokenErr : Token} {s : Text} (h : Ascii s) (h1 : token.endOfInput = false)
    (h2 : tokenErr.endOfInput = false) (he : (operatorLexeme token tokenErr s).token.endOfInput = true) :
    (operatorLexeme token tokenErr s).rest = dropLine .plain s := by
  cases s with
  | nil => rfl
  | cons c s =>
    simp only [operatorLexeme, h.head, Bool.false_eq_true, if_false] at he
    split_ifs at he
    · exact absurd (h2.symm.trans he) (by simp)
    · exact absurd (h1.symm.trans he) (by simp)

theorem outLexeme_end {s : Text} (h : Ascii s) (he : (outLexeme s).token.endOfInput = true) :
    (outLexeme s).rest = dropLine .plain s := by
  cases s with
  | nil => rfl
  | cons c s =>
    simp only [outLexeme, h.head, Bool.false_eq_true, if_false] at he ⊢
    split_ifs at he ⊢ with h1 h2
    · subst h1
      exact operatorLexeme_end h.tail rfl rfl he
    · exact absurd he (by simp [Lexeme.of, Token.endOfInput])
    · exact absurd he (by simp [Lexeme.of, Token.endOfInput])

theorem overlong_blank {c : Char} (s : Text) (hc : c = ' ' ∨ c = '\t') : overlong (c :: s) = overlong s := by
  rcases hc with rfl | rfl
  · rfl
  · rfl

theorem overlong_word {c : Char} (s : Text) (h1 : isNegative c = false) (h2 : isBlank c = false)
    (h3 : endsWord c = false) :
    overlong (c :: s) = match scanWord .plain [] (c :: s) with
      | .tooLong m rest => some (m, rest)
      | _ => none := by
  simp only [overlong, h1, h2, h3, Bool.false_eq_true, if_false]

/-- **A token that ends the line leaves what follows it**, unless it is too long a
word behind which the skipping breaks off. -/
theorem nextToken_end : ∀ {s : Text}, Ascii s → (nextToken s).token.endOfInput = true →
    (∀ m u, overlong s = some (m, u) → breaks m u = false) → (nextToken s).rest = dropLine .plain s
  | [], _, _, _ => rfl
  | c :: s, h, he, hb => by
    have hline := scanWord_line .plain [] (c :: s) h
    have hsuf := scanWord_suffix .plain [] (c :: s)
    have hs := nextToken_starts c s
    generalize nextToken (c :: s) = l at hs he
    cases hs with
    | negative hn => exact absurd hn (by simp [h.head])
    | blank hc =>
      rw [overlong_blank s hc] at hb
      exact (nextToken_end h.tail he hb).trans (dropLine_blank s hc).symm
    | newline hc =>
      subst hc
      rfl
    | operator t ht _ => exact absurd (ht.symm.trans he) (by simp)
    | pipe hc =>
      subst hc
      exact operatorLexeme_end h.tail rfl rfl he
    | out hc =>
      subst hc
      exact outLexeme_end h.tail he
    | word h1 h2 h3 =>
      rw [overlong_word s h1 h2 h3] at hb
      generalize scanWord .plain [] (c :: s) = x at hline hsuf he hb
      cases x with
      | word w rest => exact absurd he (by simp [wordLexeme, Token.endOfInput])
      | cut rest => exact hline.1.trans hline.2.symm
      | unmatched q rest => exact hline.symm
      | tooLong m rest =>
        have hrest : (wordLexeme (.tooLong m rest)).rest = skipRest rest := by cases m <;> rfl
        rw [hrest, hline]
        exact skipRest_eq_dropLine (h.suffix hsuf) (hb m rest rfl)

end Shell
end Csc501

/-
# The array `Word`

`nextToken` puts the characters of a word into the static array `Word` of
`BUF_SIZE + 1` bytes, through a pointer `p` that the loop over plain characters and the
one over quoted characters share. Here it is with that array: a store outside of it is
`none`. Each loop stores first and looks afterwards whether `p` is too far, so the last
byte of the array may be stored by a word that is too long, or by the NUL that ends one
that just fits.

`nextTokenMem` does with the array what `nextToken` does with lists (`scanMem_scanWord`),
and no store is outside (`nextTokenMem_inside`). What a token's text would be without any
limit is `tokenText`; the word is too long exactly if that is longer than `BUF_SIZE`
(`scanWord_tooLong`).

Key definitions: `WordBuf`, `WordBuf.put`, `scanMem`, `nextTokenMem`, `tokenText`, `nextText`.
Key theorems: `scanMem_scanWord`, `scanWord_tooLong`, `nextTokenMem_eq`, `tooLong_iff`,
`nextTokenMem_inside`.
-/
import Csc501.Shell.Lex

namespace Csc501
namespace Shell

open Lib

/-! ### The array and the pointer -/

/-- `EOS`. -/
def eos : Char := '\x00'

/-- The array `Word` and the pointer `p`, as an index into it. -/
structure WordBuf where
  word : List Char
  p : ℕ
  deriving DecidableEq

/-- `*p++ = c`. -/
def WordBuf.put (b : WordBuf) (c : Char) : Option WordBuf :=
  if b.p < b.word.length then some ⟨b.word.set b.p c, b.p + 1⟩ else none

/-- How the reading of a word ends. -/
inductive Ending
  | word (rest : Text)
  | cut (rest : Text)
  | unmatched (q : Char) (rest : Text)
  | tooLong (m : Mode) (rest : Text)
  deriving DecidableEq

/-- The loops of `nextToken` over a word. -/
def scanMem : Mode → WordBuf → Text → Option (WordBuf × Ending)
  | .quoted q, b, [] => some (b, .unmatched q [])
  | .plain, b, [] => some (b, .cut [])
  | .escaped, b, [] => some (b, .cut [])
  | .plain, b, c :: s =>
    if isNegative c then some (b, .cut s)
    else if isBlank c then (b.put eos).map (·, .word s)
    else if endsWord c then (b.put eos).map (·, .word (c :: s))
    else if isQuote c then scanMem (.quoted c) b s
    else if c = '\\' then scanMem .escaped b s
    else do
      let b ← b.put c
      if b.p > bufSize then some (b, .tooLong .plain s) else scanMem .plain b s
  | .escaped, b, c :: s =>
    if isNegative c then some (b, .cut s)
    else do
      let b ← b.put c
      if b.p > bufSize then some (b, .tooLong .plain s) else scanMem .plain b s
  | .quoted q, b, c :: s =>
    if c = q then (b.put eos).map (·, .word s)
    else if isNegative c || c = '\n' then some (b, .unmatched q s)
    else do
      let b ← b.put c
      if b.p > bufSize then some (b, .tooLong (.quoted q) s) else scanMem (.quoted q) b s

/-- What a call of `nextToken` returns, leaves in the array, leaves of the input and
prints. -/
structure Taken where
  token : Token
  word : List Char
  rest : Text
  printed : Text
  deriving DecidableEq

/-- The token and the rest of a call that stores nothing more. -/
def Taken.of (word : List Char) (l : Lexeme) : Taken := ⟨l.token, word, l.rest, l.printed⟩

/-- Behind a word. -/
def wordTaken : WordBuf × Ending → Taken
  | (b, .word rest) => ⟨.tword, b.word, rest, []⟩
  | (b, .cut rest) => ⟨.terror, b.word, rest, []⟩
  | (b, .unmatched q rest) => ⟨.terror, b.word, rest, "Unmatched ".toList ++ [q, '\n']⟩
  | (b, .tooLong (.quoted _) rest) => ⟨.terror, b.word, skipRest rest, "String too long (> 63 bytes)\n".toList⟩
  | (b, .tooLong _ rest) => ⟨.terror, b.word, skipRest rest, "Word too long (> 63 bytes)\n".toList⟩

/-- `nextToken`, with the array. `Word[0] = EOS` is a store too. -/
def nextTokenMem (word : List Char) : Text → Option Taken
  | [] => do
    let b ← WordBuf.put ⟨word, 0⟩ eos
    some (.of b.word (.of .tend []))
  | c :: s => do
    let b ← WordBuf.put ⟨word, 0⟩ eos
    if isNegative c then some (.of b.word (.of .tend s))
    else if isBlank c then nextTokenMem b.word s
    else if c = '\n' then some (.of b.word (.of .tnl s))
    else if c = '&' then some (.of b.word (.of .tamp s))
    else if c = ';' then some (.of b.word (.of .tsemi s))
    else if c = '<' then some (.of b.word (.of .tin s))
    else if c = '|' then some (.of b.word (operatorLexeme .tpipe .tpipeErr s))
    else if c = '>' then some (.of b.word (outLexeme s))
    else do
      let r ← scanMem .plain ⟨b.word, 0⟩ (c :: s)
      some (wordTaken r)

/-! ### The text of a token -/

/-- The characters of a word up to where it ends, the quotes and the backslashes that
quote left out. -/
def tokenText : Mode → Text → Text
  | _, [] => []
  | .plain, c :: s =>
    if isNegative c || isBlank c || endsWord c then []
    else if isQuote c then tokenText (.quoted c) s
    else if c = '\\' then tokenText .escaped s
    else c :: tokenText .plain s
  | .escaped, c :: s => if isNegative c then [] else c :: tokenText .plain s
  | .quoted q, c :: s => if c = q || isNegative c || c = '\n' then [] else c :: tokenText (.quoted q) s

/-- The text of the next token, if that is a word. -/
def nextText : Text → Text
  | [] => []
  | c :: s =>
    if isNegative c then []
    else if isBlank c then nextText s
    else if endsWord c then []
    else tokenText .plain (c :: s)

/-- The scan ended with one byte too many. -/
def Scan.isTooLong : Scan → Bool
  | .tooLong _ _ => true
  | _ => false

/-- Where a character is stored: the next one may be stored too, or was one too many. -/
theorem tooLong_store {m m' : Mode} {acc s : Text} {c : Char} (h : acc.length ≤ bufSize)
    (ih : (acc ++ [c]).length ≤ bufSize → ((scanWord m (acc ++ [c]) s).isTooLong = true ↔
      bufSize < (acc ++ [c]).length + (tokenText m s).length)) :
    (if acc.length < bufSize then scanWord m (acc ++ [c]) s else .tooLong m' s).isTooLong = true ↔
      bufSize < acc.length + (c :: tokenText m s).length := by
  have hlen : (acc ++ [c]).length = acc.length + 1 := by simp
  rw [hlen] at ih
  rw [List.length_cons]
  split_ifs with hlt
  · rw [ih hlt]
    omega
  · simp only [Scan.isTooLong, true_iff]
    omega

/-- **A word is too long exactly if its text is.** -/
theorem scanWord_tooLong : ∀ (m : Mode) (acc s : Text), acc.length ≤ bufSize →
    ((scanWord m acc s).isTooLong = true ↔ bufSize < acc.length + (tokenText m s).length)
  | .plain, acc, [], h => by simpa [scanWord, Scan.isTooLong, tokenText] using h
  | .escaped, acc, [], h => by simpa [scanWord, Scan.isTooLong, tokenText] using h
  | .quoted q, acc, [], h => by simpa [scanWord, Scan.isTooLong, tokenText] using h
  | .plain, acc, c :: s, h => by
    unfold scanWord tokenText
    by_cases h1 : isNegative c = true
    · simpa [h1, Scan.isTooLong] using h
    by_cases h2 : isBlank c = true
    · simpa [h1, h2, Scan.isTooLong] using h
    by_cases h3 : endsWord c = true
    · simpa [h1, h2, h3, Scan.isTooLong] using h
    have hends : ¬ (isNegative c || isBlank c || endsWord c) = true := by simp [h1, h2, h3]
    rw [if_neg h1, if_neg h2, if_neg h3, if_neg hends]
    by_cases h4 : isQuote c = true
    · rw [if_pos h4, if_pos h4]
      exact scanWord_tooLong (.quoted c) acc s h
    by_cases h5 : c = '\\'
    · rw [if_neg h4, if_neg h4, if_pos h5, if_pos h5]
      exact scanWord_tooLong .escaped acc s h
    rw [if_neg h4, if_neg h4, if_neg h5, if_neg h5]
    exact tooLong_store h (scanWord_tooLong .plain (acc ++ [c]) s)
  | .escaped, acc, c :: s, h => by
    unfold scanWord tokenText
    by_cases h1 : isNegative c = true
    · simpa [h1, Scan.isTooLong] using h
    rw [if_neg h1, if_neg h1]
    exact tooLong_store h (scanWord_tooLong .plain (acc ++ [c]) s)
  | .quoted q, acc, c :: s, h => by
    unfold scanWord tokenText
    by_cases h1 : c = q
    · simpa [h1, Scan.isTooLong] using h
    by_cases h2 : (isNegative c || c = '\n') = true
    · have hends : (c = q || isNegative c || c = '\n') = true := by simpa [h1] using h2
      rw [if_neg h1, if_pos h2, if_pos hends]
      simpa [Scan.isTooLong] using h
    have hends : ¬ (c = q || isNegative c || c = '\n') = true := by simpa [h1] using h2
    rw [if_neg h1, if_neg h2, if_neg hends]
    exact tooLong_store h (scanWord_tooLong (.quoted q) (acc ++ [c]) s)

/-! ### The array holds the word -/

/-- The array has its size, and the bytes in front of `p` are those of `acc`. -/
structure Holds (b : WordBuf) (acc : Text) : Prop where
  size : b.word.length = bufSize + 1
  cursor : b.p = acc.length
  bytes : b.word.take acc.length = acc

theorem holds_nil {word : Text} (hword : word.length = bufSize + 1) : Holds ⟨word, 0⟩ [] := ⟨hword, rfl, rfl⟩

/-- **A store inside the array.** -/
theorem Holds.put {b : WordBuf} {acc : Text} (h : Holds b acc) (hle : acc.length ≤ bufSize) (c : Char) :
    ∃ b', b.put c = some b' ∧ Holds b' (acc ++ [c]) := by
  have hin : b.p < b.word.length := by
    rw [h.size, h.cursor]
    omega
  refine ⟨_, if_pos hin, ?_, ?_, ?_⟩
  · rw [List.length_set, h.size]
  · rw [h.cursor, List.length_append, List.length_singleton]
  · simp only [List.length_append, List.length_singleton, h.cursor]
    rw [List.take_add_one, List.take_set_of_le le_rfl, h.bytes, List.getElem?_set_self (h.cursor ▸ hin)]
    rfl

/-- How a scan with the array ends, if the one with lists ends as it does. -/
def Ends : WordBuf × Ending → Scan → Prop
  | (b, .word rest), .word w rest' => rest = rest' ∧ w.length ≤ bufSize ∧ Holds b (w ++ [eos])
  | (b, .cut rest), .cut rest' => rest = rest' ∧ b.word.length = bufSize + 1
  | (b, .unmatched q rest), .unmatched q' rest' => q = q' ∧ rest = rest' ∧ b.word.length = bufSize + 1
  | (b, .tooLong m rest), .tooLong m' rest' => m = m' ∧ rest = rest' ∧ b.word.length = bufSize + 1
  | _, _ => False

/-- The end of a word is stored. -/
theorem Holds.finish {b : WordBuf} {acc : Text} (h : Holds b acc) (hle : acc.length ≤ bufSize) (rest : Text) :
    ∃ r, (b.put eos).map (·, Ending.word rest) = some r ∧ Ends r (.word acc rest) := by
  obtain ⟨b', hput, hb'⟩ := h.put hle eos
  exact ⟨(b', .word rest), by rw [hput, Option.map_some], rfl, hle, hb'⟩

/-- A character is stored, and the scan goes on if it was not one too many. -/
theorem Holds.store {b : WordBuf} {acc s : Text} {c : Char} {m m' : Mode} (h : Holds b acc) (hle : acc.length ≤ bufSize)
    (ih : ∀ b', Holds b' (acc ++ [c]) → (acc ++ [c]).length ≤ bufSize →
      ∃ r, scanMem m b' s = some r ∧ Ends r (scanWord m (acc ++ [c]) s)) :
    ∃ r, ((b.put c).bind fun b' => if b'.p > bufSize then some (b', .tooLong m' s) else scanMem m b' s) = some r ∧
      Ends r (if acc.length < bufSize then scanWord m (acc ++ [c]) s else .tooLong m' s) := by
  obtain ⟨b', hput, hb'⟩ := h.put hle c
  have hp : b'.p = acc.length + 1 := by rw [hb'.cursor, List.length_append, List.length_singleton]
  rw [hput, Option.bind_some, hp]
  by_cases hlt : acc.length < bufSize
  · rw [if_neg (by omega), if_pos hlt]
    exact ih b' hb' (by rw [← hb'.cursor]; omega)
  · rw [if_pos (by omega), if_neg hlt]
    exact ⟨_, rfl, rfl, rfl, hb'.size⟩

/-- **The loops store inside the array**, and end as the scan with lists does. -/
theorem scanMem_scanWord : ∀ (m : Mode) (s : Text) {b : WordBuf} {acc : Text}, Holds b acc → acc.length ≤ bufSize →
    ∃ r, scanMem m b s = some r ∧ Ends r (scanWord m acc s)
  | .plain, [], b, acc, h, _ => ⟨(b, .cut []), rfl, rfl, h.size⟩
  | .escaped, [], b, acc, h, _ => ⟨(b, .cut []), rfl, rfl, h.size⟩
  | .quoted q, [], b, acc, h, _ => ⟨(b, .unmatched q []), rfl, rfl, rfl, h.size⟩
  | .plain, c :: s, b, acc, h, hle => by
    unfold scanMem scanWord
    by_cases h1 : isNegative c = true
    · rw [if_pos h1, if_pos h1]
      exact ⟨(b, .cut s), rfl, rfl, h.size⟩
    by_cases h2 : isBlank c = true
    · rw [if_neg h1, if_neg h1, if_pos h2, if_pos h2]
      exact h.finish hle s
    by_cases h3 : endsWord c = true
    · rw [if_neg h1, if_neg h1, if_neg h2, if_neg h2, if_pos h3, if_pos h3]
      exact h.finish hle (c :: s)
    rw [if_neg h1, if_neg h1, if_neg h2, if_neg h2, if_neg h3, if_neg h3]
    by_cases h4 : isQuote c = true
    · rw [if_pos h4, if_pos h4]
      exact scanMem_scanWord (.quoted c) s h hle
    by_cases h5 : c = '\\'
    · rw [if_neg h4, if_neg h4, if_pos h5, if_pos h5]
      exact scanMem_scanWord .escaped s h hle
    rw [if_neg h4, if_neg h4, if_neg h5, if_neg h5]
    exact h.store hle fun b' hb' hle' => scanMem_scanWord .plain s hb' hle'
  | .escaped, c :: s, b, acc, h, hle => by
    unfold scanMem scanWord
    by_cases h1 : isNegative c = true
    · rw [if_pos h1, if_pos h1]
      exact ⟨(b, .cut s), rfl, rfl, h.size⟩
    rw [if_neg h1, if_neg h1]
    exact h.store hle fun b' hb' hle' => scanMem_scanWord .plain s hb' hle'
  | .quoted q, c :: s, b, acc, h, hle => by
    unfold scanMem scanWord
    by_cases h1 : c = q
    · rw [if_pos h1, if_pos h1]
      exact h.finish hle s
    by_cases h2 : (isNegative c || c = '\n') = true
    · rw [if_neg h1, if_neg h1, if_pos h2, if_pos h2]
      exact ⟨(b, .unmatched q s), rfl, rfl, rfl, h.size⟩
    rw [if_neg h1, if_neg h1, if_neg h2, if_neg h2]
    exact h.store hle fun b' hb' hle' => scanMem_scanWord (.quoted q) s hb' hle'

/-! ### A call -/

/-- What a call with the array does, if the one with lists does as it does. -/
structure Tallies (x : Taken) (l : Lexeme) : Prop where
  token : x.token = l.token
  rest : x.rest = l.rest
  printed : x.printed = l.printed
  size : x.word.length = bufSize + 1
  word : x.token = .tword → l.word.length ≤ bufSize ∧ x.word.take (l.word.length + 1) = l.word ++ [eos]

/-- A call that stores nothing more. -/
theorem tallies_of {word : List Char} (hword : word.length = bufSize + 1) {l : Lexeme} (h : l.token ≠ .tword) :
    Tallies (.of word l) l := ⟨rfl, rfl, rfl, hword, fun ht => absurd ht h⟩

/-- Two calls that branch by the same test. -/
theorem tallies_ite {p : Prop} [Decidable p] {x y : Option Taken} {l m : Lexeme}
    (hx : p → ∃ t, x = some t ∧ Tallies t l) (hy : ¬ p → ∃ t, y = some t ∧ Tallies t m) :
    ∃ t, (if p then x else y) = some t ∧ Tallies t (if p then l else m) := by
  by_cases hp : p
  · rw [if_pos hp, if_pos hp]
    exact hx hp
  · rw [if_neg hp, if_neg hp]
    exact hy hp

theorem tallies_word {r : WordBuf × Ending} {x : Scan} (h : Ends r x) : Tallies (wordTaken r) (wordLexeme x) := by
  obtain ⟨b, e⟩ := r
  cases x with
  | word w rest =>
    cases e with
    | word rest' =>
      obtain ⟨rfl, hle, hb⟩ := h
      refine ⟨rfl, rfl, rfl, hb.size, fun _ => ⟨hle, ?_⟩⟩
      have hlen : (w ++ [eos]).length = w.length + 1 := by simp
      have hbytes := hb.bytes
      rw [hlen] at hbytes
      exact hbytes
    | _ => exact absurd h id
  | cut rest =>
    cases e with
    | cut rest' =>
      obtain ⟨rfl, hsize⟩ := h
      exact ⟨rfl, rfl, rfl, hsize, fun ht => absurd ht (by simp [wordTaken])⟩
    | _ => exact absurd h id
  | unmatched q rest =>
    cases e with
    | unmatched q' rest' =>
      obtain ⟨rfl, rfl, hsize⟩ := h
      exact ⟨rfl, rfl, rfl, hsize, fun ht => absurd ht (by simp [wordTaken])⟩
    | _ => exact absurd h id
  | tooLong m rest =>
    cases e with
    | tooLong m' rest' =>
      obtain ⟨rfl, rfl, hsize⟩ := h
      cases m' with
      | quoted q => exact ⟨rfl, rfl, rfl, hsize, fun ht => absurd ht (by simp [wordTaken])⟩
      | plain => exact ⟨rfl, rfl, rfl, hsize, fun ht => absurd ht (by simp [wordTaken])⟩
      | escaped => exact ⟨rfl, rfl, rfl, hsize, fun ht => absurd ht (by simp [wordTaken])⟩
    | _ => exact absurd h id

theorem operatorLexeme_token {token tokenErr : Token} (h1 : token ≠ .tword) (h2 : tokenErr ≠ .tword) (s : Text) :
    (operatorLexeme token tokenErr s).token ≠ .tword := by
  cases s with
  | nil => simp [operatorLexeme, Lexeme.of]
  | cons c s =>
    simp only [operatorLexeme]
    split_ifs
    · simp [Lexeme.of]
    · exact h2
    · exact h1

theorem outLexeme_token (s : Text) : (outLexeme s).token ≠ .tword := by
  cases s with
  | nil => simp [outLexeme, Lexeme.of]
  | cons c s =>
    simp only [outLexeme]
    split_ifs
    · simp [Lexeme.of]
    · exact operatorLexeme_token (by simp) (by simp) s
    · simp [Lexeme.of]
    · simp [Lexeme.of]

/-- **A call with the array is one with lists**: no store is outside of the array. -/
theorem nextTokenMem_eq : ∀ (s : Text) {word : List Char}, word.length = bufSize + 1 →
    ∃ x, nextTokenMem word s = some x ∧ Tallies x (nextToken s)
  | [], word, hword => by
    obtain ⟨b, hput, hb⟩ := Holds.put (holds_nil hword) (Nat.zero_le _) eos
    simp only [nextTokenMem, nextToken, hput, Option.bind_eq_bind, Option.bind_some]
    exact ⟨_, rfl, tallies_of hb.size (by simp [Lexeme.of])⟩
  | c :: s, word, hword => by
    obtain ⟨b, hput, hb⟩ := Holds.put (holds_nil hword) (Nat.zero_le _) eos
    simp only [nextTokenMem, nextToken, hput, Option.bind_eq_bind, Option.bind_some]
    -- the branches of the two functions are taken by the same tests
    refine tallies_ite (fun _ => ⟨_, rfl, tallies_of hb.size (by simp [Lexeme.of])⟩) fun _ => ?_
    refine tallies_ite (fun _ => nextTokenMem_eq s hb.size) fun _ => ?_
    refine tallies_ite (fun _ => ⟨_, rfl, tallies_of hb.size (by simp [Lexeme.of])⟩) fun _ => ?_
    refine tallies_ite (fun _ => ⟨_, rfl, tallies_of hb.size (by simp [Lexeme.of])⟩) fun _ => ?_
    refine tallies_ite (fun _ => ⟨_, rfl, tallies_of hb.size (by simp [Lexeme.of])⟩) fun _ => ?_
    refine tallies_ite (fun _ => ⟨_, rfl, tallies_of hb.size (by simp [Lexeme.of])⟩) fun _ => ?_
    refine tallies_ite (fun _ => ⟨_, rfl, tallies_of hb.size (operatorLexeme_token (by simp) (by simp) s)⟩) fun _ => ?_
    refine tallies_ite (fun _ => ⟨_, rfl, tallies_of hb.size (outLexeme_token s)⟩) fun _ => ?_
    obtain ⟨r, hr, hends⟩ := scanMem_scanWord .plain (c :: s) (holds_nil hb.size) (Nat.zero_le _)
    rw [hr, Option.bind_some]
    exact ⟨_, rfl, tallies_word hends⟩

/-! ### When a word is too long -/

/-- The messages about a word that is too long. -/
def saysTooLong (printed : Text) : Bool :=
  printed = "String too long (> 63 bytes)\n".toList || printed = "Word too long (> 63 bytes)\n".toList

/-- The error about a word that is too long. -/
def Lexeme.TooLong (l : Lexeme) : Prop := l.token = .terror ∧ saysTooLong l.printed = true

theorem tooLong_wordLexeme (x : Scan) : (wordLexeme x).TooLong ↔ x.isTooLong = true := by
  cases x with
  | word w rest => simp [Lexeme.TooLong, wordLexeme, Scan.isTooLong]
  | cut rest => simp [Lexeme.TooLong, wordLexeme, Lexeme.of, saysTooLong, Scan.isTooLong]
  | unmatched q rest => simp [Lexeme.TooLong, wordLexeme, saysTooLong, Scan.isTooLong]
  | tooLong m rest => cases m <;> simp [Lexeme.TooLong, wordLexeme, saysTooLong, Scan.isTooLong]

/-- A token about which nothing is printed. -/
theorem not_tooLong {l : Lexeme} (h : l.printed = []) : ¬ l.TooLong := by
  rintro ⟨-, hsays⟩
  rw [h] at hsays
  exact absurd hsays (by decide)

theorem operatorLexeme_printed (token tokenErr : Token) (s : Text) : (operatorLexeme token tokenErr s).printed = [] := by
  cases s with
  | nil => rfl
  | cons c s =>
    simp only [operatorLexeme]
    split_ifs <;> rfl

theorem outLexeme_printed (s : Text) : (outLexeme s).printed = [] := by
  cases s with
  | nil => rfl
  | cons c s =>
    simp only [outLexeme]
    split_ifs
    · rfl
    · exact operatorLexeme_printed _ _ s
    · rfl
    · rfl

/-- A token whose text is empty is not too long. -/
theorem not_long_iff {l : Lexeme} {text : Text} (hl : l.printed = []) (ht : text = []) :
    l.TooLong ↔ bufSize < text.length := by
  subst ht
  exact iff_of_false (not_tooLong hl) (by simp)

/-- **The error is for exactly those tokens whose text is too long.** -/
theorem tooLong_iff : ∀ s : Text, (nextToken s).TooLong ↔ bufSize < (nextText s).length
  | [] => not_long_iff rfl rfl
  | c :: s => by
    have hs := nextToken_starts c s
    generalize nextToken (c :: s) = l at hs
    cases hs with
    | negative h => exact not_long_iff rfl (by simp [nextText, h])
    | blank h =>
      have hnext : nextText (c :: s) = nextText s := by rcases h with rfl | rfl <;> rfl
      rw [hnext]
      exact tooLong_iff s
    | newline h => exact not_long_iff rfl (by subst h; rfl)
    | operator t _ h => exact not_long_iff rfl (by rcases h with rfl | rfl | rfl <;> rfl)
    | pipe h => exact not_long_iff (operatorLexeme_printed _ _ s) (by subst h; rfl)
    | out h => exact not_long_iff (outLexeme_printed s) (by subst h; rfl)
    | word h1 h2 h3 =>
      have hnext : nextText (c :: s) = tokenText .plain (c :: s) := by simp [nextText, h1, h2, h3]
      rw [tooLong_wordLexeme, hnext, scanWord_tooLong .plain [] (c :: s) (Nat.zero_le _), List.length_nil,
        Nat.zero_add]

/-- **The array is safe.** Whatever the input and whatever the array holds from before,
a call of `nextToken` returns and stores at indices from 0 to `BUF_SIZE` only: any other
store would be `none`. When it returns a word, the array holds that word, of `BUF_SIZE`
characters at most, and a NUL behind it. It returns the error about a word that is too
long exactly if the token's text is longer than that. -/
theorem nextTokenMem_inside {word : List Char} (hword : word.length = bufSize + 1) (s : Text) :
    ∃ x, nextTokenMem word s = some x ∧ x.word.length = bufSize + 1 ∧
      (x.token = .tword → ∃ w tail, x.word = w ++ eos :: tail ∧ w.length ≤ bufSize ∧ w = (nextToken s).word) ∧
      (x.token = .terror ∧ saysTooLong x.printed = true ↔ bufSize < (nextText s).length) := by
  obtain ⟨x, hx, htally⟩ := nextTokenMem_eq s hword
  refine ⟨x, hx, htally.size, ?_, ?_⟩
  · intro ht
    obtain ⟨hle, htake⟩ := htally.word ht
    refine ⟨(nextToken s).word, x.word.drop ((nextToken s).word.length + 1), ?_, hle, rfl⟩
    rw [← List.take_append_drop ((nextToken s).word.length + 1) x.word, htake]
    simp
  · rw [htally.printed, htally.token]
    exact tooLong_iff s

/-- A word of 63 characters fits, and one of 64 is too long. -/
theorem nextTokenMem_inside_full :
    (∃ x, nextTokenMem (List.replicate 64 'x') (List.replicate 63 'a' ++ " ".toList) = some x ∧
      x.word.length = 64 ∧ ¬ (x.token = .terror ∧ saysTooLong x.printed = true)) ∧
    ∃ x, nextTokenMem (List.replicate 64 'x') (List.replicate 64 'a' ++ " ".toList) = some x ∧
      x.word.length = 64 ∧ x.token = .terror ∧ saysTooLong x.printed = true := by
  have hword : (List.replicate 64 'x').length = bufSize + 1 := List.length_replicate
  constructor
  · obtain ⟨x, hx, hsize, -, hlong⟩ := nextTokenMem_inside hword (List.replicate 63 'a' ++ " ".toList)
    exact ⟨x, hx, hsize, fun h => absurd (hlong.mp h) (by decide)⟩
  · obtain ⟨x, hx, hsize, -, hlong⟩ := nextTokenMem_inside hword (List.replicate 64 'a' ++ " ".toList)
    exact ⟨x, hx, hsize, hlong.mpr (by decide)⟩

end Shell
end Csc501

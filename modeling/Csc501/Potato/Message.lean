/-
# Reading a message off a connection

`read_message` (`hw3/utils.c`) receives until the peer closes and takes each
piece apart at the newlines on its own, writing every token it finds with a
newline of its own behind the last. So it puts a newline into a line that
arrives in two pieces, and it takes half a line for the word `close`: the
message comes out right exactly when every cut between two pieces has a
newline on one of its sides (`readMessage_iff`).

There is one more condition: the text written can be one character longer
than the text received, when the last line is not ended, and then it may just
not fit.

Key definitions: `readMessage`, `lineText`, `CleanCuts`, `messageLines`.
Key theorems: `readMessageFrom_pieces`, `messageLines_wire`, `readMessage_iff`.
-/
import Csc501.Lib.CText
import Mathlib.Data.List.Chain

namespace Csc501
namespace Potato

open Lib

/-- `MAX_RECV_SIZE`. -/
def maxRecvSize : ℕ := 65536

/-- One result of `recv`. -/
inductive Recv
  | failed
  | closed
  | data (bytes : List Char)
  deriving DecidableEq, Repr

/-- How `read_message` ends: it returns with the text in `message`, it exits
after a failed `recv`, it writes past the end of `message`, or it waits. -/
inductive Outcome
  | returned (message : Text)
  | exited
  | overrun
  | waiting
  deriving DecidableEq, Repr

/-- How the loop over the tokens of one piece ends. -/
inductive Stored
  | more (message : Text)
  | close (message : Text)
  | overrun
  deriving DecidableEq, Repr

/-- The word that ends a message. -/
def closeWord : Text := "close".toList

/-- The tokens of one piece: `sprintf(message + m, "%s\n", token)` writes the
token, the newline and a NUL. -/
def storeTokens (bufferSize : ℕ) (message : Text) : List Text → Stored
  | [] => .more message
  | token :: rest =>
    if token = closeWord then .close message
    else if message.length + token.length + 2 ≤ bufferSize then
      storeTokens bufferSize (message ++ token ++ ['\n']) rest
    else .overrun

/-- The receive loop, with `message` written so far. -/
def readMessageFrom (bufferSize : ℕ) (message : Text) : List Recv → Outcome
  | [] => .waiting
  | .failed :: _ => .exited
  | .closed :: _ => .returned message
  | .data bytes :: rest =>
    match storeTokens bufferSize message (tokens '\n' (cstr bytes)) with
    | .more m => readMessageFrom bufferSize m rest
    | .close m => .returned m
    | .overrun => .overrun

/-- `read_message`. -/
def readMessage (bufferSize : ℕ) (rs : List Recv) : Outcome := readMessageFrom bufferSize [] rs

/-! ### The tokens are written one after the other -/

/-- Lines as text, each with its newline. -/
def lineText (ls : List Text) : Text := ls.flatMap (· ++ ['\n'])

@[simp] theorem lineText_nil : lineText [] = [] := rfl

@[simp] theorem lineText_cons (l : Text) (ls : List Text) : lineText (l :: ls) = l ++ '\n' :: lineText ls := by
  simp [lineText]

theorem lineText_append (a b : List Text) : lineText (a ++ b) = lineText a ++ lineText b := by
  simp [lineText]

theorem storeTokens_append (n : ℕ) : ∀ (a b : List Text) (m : Text),
    storeTokens n m (a ++ b) = match storeTokens n m a with
      | .more m' => storeTokens n m' b
      | .close m' => .close m'
      | .overrun => .overrun
  | [], _, _ => rfl
  | t :: a, b, m => by
    simp only [List.cons_append, storeTokens]
    split_ifs
    · rfl
    · exact storeTokens_append n a b _
    · rfl

theorem storeTokens_of_fits (n : ℕ) : ∀ (ts : List Text) (m : Text), (∀ t ∈ ts, t ≠ closeWord) →
    (m ++ lineText ts).length < n → storeTokens n m ts = .more (m ++ lineText ts)
  | [], m, _, _ => by simp [storeTokens]
  | t :: ts, m, hc, hn => by
    have hfit : m.length + t.length + 2 ≤ n := by
      simp only [lineText_cons, List.length_append, List.length_cons] at hn
      omega
    rw [storeTokens, if_neg (hc t List.mem_cons_self), if_pos hfit,
      storeTokens_of_fits n ts _ (fun u hu => hc u (List.mem_cons_of_mem _ hu)) (by simpa using hn)]
    simp

/-- What a loop that went to its end has written. -/
theorem storeTokens_more {n : ℕ} : ∀ {ts : List Text} {m m' : Text}, storeTokens n m ts = .more m' →
    m' = m ++ lineText ts ∧ (ts ≠ [] → m'.length < n)
  | [], m, m', h => by
    obtain rfl : m = m' := by simpa [storeTokens] using h
    simp
  | t :: ts, m, m', h => by
    rw [storeTokens] at h
    split_ifs at h with h1 h2
    obtain ⟨rfl, hlt⟩ := storeTokens_more h
    refine ⟨by simp, fun _ => ?_⟩
    cases ts with
    | nil =>
      simp only [lineText_nil, List.append_nil, List.length_append, List.length_singleton]
      omega
    | cons u us => exact hlt (by simp)

/-- A loop that met the word `close` has written what came before. -/
theorem storeTokens_close {n : ℕ} : ∀ {ts : List Text} {m m' : Text}, storeTokens n m ts = .close m' →
    ∃ a b, ts = a ++ closeWord :: b ∧ m' = m ++ lineText a
  | [], m, m', h => by simp [storeTokens] at h
  | t :: ts, m, m', h => by
    rw [storeTokens] at h
    split_ifs at h with h1 h2
    · obtain rfl : m = m' := by simpa using h
      exact ⟨[], ts, by simp [h1], by simp⟩
    · obtain ⟨a, b, rfl, rfl⟩ := storeTokens_close h
      exact ⟨t :: a, b, rfl, by simp⟩

/-- The receive loop does with the tokens of all pieces what it does with
those of one. -/
theorem readMessageFrom_pieces (n : ℕ) : ∀ (ps : List (List Char)) (m : Text),
    readMessageFrom n m (ps.map .data ++ [.closed]) =
      match storeTokens n m (ps.flatMap fun p => tokens '\n' (cstr p)) with
      | .more m' => .returned m'
      | .close m' => .returned m'
      | .overrun => .overrun
  | [], m => rfl
  | p :: ps, m => by
    rw [List.map_cons, List.cons_append, readMessageFrom, List.flatMap_cons, storeTokens_append]
    cases storeTokens n m (tokens '\n' (cstr p)) with
    | more m' => exact readMessageFrom_pieces n ps m'
    | close m' => rfl
    | overrun => rfl

/-! ### Where the pieces may be cut -/

/-- A line of a message: text, not empty. -/
def IsLine (l : Text) : Prop := l ≠ [] ∧ '\n' ∉ l ∧ '\x00' ∉ l

instance (l : Text) : Decidable (IsLine l) := inferInstanceAs (Decidable (_ ∧ _))

/-- A message on the wire; the last newline may be missing. -/
def wire (ls : List Text) (ended : Bool) : Text :=
  if ended then lineText ls else (lineText ls).dropLast

/-- Every cut between two pieces has a newline on one of its sides. -/
def CleanCuts (ps : List (List Char)) : Prop :=
  ps.IsChain fun a b => a.getLast? = some '\n' ∨ b.head? = some '\n'

theorem tokens_lineText : ∀ {ls : List Text}, (∀ l ∈ ls, IsLine l) → tokens '\n' (lineText ls) = ls
  | [], _ => tokens_nil
  | l :: ls, h => by
    obtain ⟨hne, hnl, -⟩ := h l List.mem_cons_self
    rw [lineText_cons, tokens_word_cons hne hnl,
      tokens_lineText fun x hx => h x (List.mem_cons_of_mem _ hx)]

/-- The text of some lines ends in a newline. -/
theorem lineText_eq_concat {ls : List Text} (h : ls ≠ []) : lineText ls = (lineText ls).dropLast ++ ['\n'] := by
  obtain ⟨ls', l, rfl⟩ := List.eq_nil_or_concat ls |>.resolve_left h
  simp [lineText_append]

theorem tokens_wire {ls : List Text} (h : ∀ l ∈ ls, IsLine l) (ended : Bool) :
    tokens '\n' (wire ls ended) = ls := by
  cases ended with
  | true => exact tokens_lineText h
  | false =>
    by_cases hls : ls = []
    · subst hls; simp [wire]
    · rw [wire, if_neg (by simp), ← tokens_concat_self, ← lineText_eq_concat hls, tokens_lineText h]

theorem nul_not_mem_wire {ls : List Text} (h : ∀ l ∈ ls, IsLine l) (ended : Bool) :
    '\x00' ∉ wire ls ended := by
  have hl : '\x00' ∉ lineText ls := by
    simp only [lineText, List.mem_flatMap, List.mem_append, List.mem_singleton, not_exists, not_and]
    intro l hl hmem
    rcases hmem with hmem | hmem
    · exact (h l hl).2.2 hmem
    · exact absurd hmem (by decide)
  cases ended with
  | true => exact hl
  | false => exact fun hm => hl ((List.dropLast_sublist _).subset hm)

/-- The tokens of the pieces, against those of the whole: as many when the
cuts are clean, more otherwise. -/
theorem tokens_pieces : ∀ {ps : List (List Char)}, (∀ p ∈ ps, p ≠ []) →
    (CleanCuts ps → ps.flatMap (tokens '\n') = tokens '\n' ps.flatten) ∧
    ((tokens '\n' ps.flatten).length ≤ (ps.flatMap (tokens '\n')).length) ∧
    (¬ CleanCuts ps → (tokens '\n' ps.flatten).length < (ps.flatMap (tokens '\n')).length)
  | [], _ => by simp [CleanCuts]
  | [p], _ => by simp [CleanCuts]
  | p :: q :: ps, h => by
    have hqs : ∀ x ∈ q :: ps, x ≠ [] := fun x hx => h x (List.mem_cons_of_mem _ hx)
    obtain ⟨ih1, ih2, ih3⟩ := tokens_pieces hqs
    have hp := h p List.mem_cons_self
    have hq := h q (by simp)
    obtain ⟨y, q', rfl⟩ := List.exists_cons_of_ne_nil hq
    have hhead : ((y :: q') :: ps).flatten.head? = some y := by simp
    rw [List.flatten_cons, List.flatMap_cons, List.length_append]
    by_cases hcut : p.getLast? = some '\n' ∨ (y :: q').head? = some '\n'
    · -- a clean cut
      have hcut' : p = [] ∨ p.getLast? = some '\n' ∨ ((y :: q') :: ps).flatten = [] ∨
          ((y :: q') :: ps).flatten.head? = some '\n' := by
        rcases hcut with hc | hc
        · exact Or.inr (Or.inl hc)
        · exact Or.inr (Or.inr (Or.inr (hhead.trans (by simpa using hc))))
      rw [tokens_append_of_clean hcut', List.length_append]
      refine ⟨fun hcl => ?_, by omega, fun hcl => ?_⟩
      · rw [ih1 (List.isChain_cons_cons.mp hcl).2]
      · have := ih3 fun h' => hcl (List.isChain_cons_cons.mpr ⟨hcut, h'⟩)
        omega
    · -- a cut inside a line
      push Not at hcut
      obtain ⟨x, hx⟩ := Option.isSome_iff_exists.mp (List.getLast?_isSome.mpr hp)
      have hxn : x ≠ '\n' := fun h' => hcut.1 (h' ▸ hx)
      have hyn : y ≠ '\n' := fun h' => hcut.2 (by simp [h'])
      have hlen := length_tokens_append_of_inside hx hxn hhead hyn
      refine ⟨fun hcl => ?_, by omega, fun _ => by omega⟩
      rcases (List.isChain_cons_cons.mp hcl).1 with hc | hc
      · exact absurd hc hcut.1
      · exact absurd hc hcut.2

theorem flatten_pieces : ∀ ps : List (List Char),
    (ps.flatMap (tokens '\n')).flatten = ps.flatten.filter (· ≠ '\n')
  | [] => rfl
  | p :: ps => by
    rw [List.flatMap_cons, List.flatten_append, flatten_tokens, flatten_pieces ps, List.flatten_cons,
      List.filter_append]

/-- The characters of a message that are no newlines. -/
theorem filter_lineText : ∀ {ls : List Text}, (∀ l ∈ ls, '\n' ∉ l) →
    (lineText ls).filter (· ≠ '\n') = ls.flatten
  | [], _ => rfl
  | l :: ls, h => by
    have hl : l.filter (· ≠ '\n') = l := List.filter_eq_self.mpr fun c hc => by
      have : c ≠ '\n' := fun h' => h l List.mem_cons_self (h' ▸ hc)
      simpa using this
    rw [lineText_cons, List.filter_append, hl, List.filter_cons_of_neg (by simp),
      filter_lineText fun x hx => h x (List.mem_cons_of_mem _ hx), List.flatten_cons]

theorem newline_not_mem_tokens {s t : Text} (h : t ∈ tokens '\n' s) : '\n' ∉ t := by
  intro hn
  have : '\n' ∈ (tokens '\n' s).flatten := List.mem_flatten.mpr ⟨t, h, hn⟩
  rw [flatten_tokens] at this
  simpa using (List.mem_filter.mp this).2

/-- `lineText` forgets nothing about lines. -/
theorem length_eq_count_lineText : ∀ {ls : List Text}, (∀ l ∈ ls, '\n' ∉ l) →
    (lineText ls).count '\n' = ls.length
  | [], _ => rfl
  | l :: ls, h => by
    rw [lineText_cons, List.count_append, List.count_eq_zero.mpr (h l List.mem_cons_self),
      List.count_cons_self, length_eq_count_lineText fun x hx => h x (List.mem_cons_of_mem _ hx)]
    simp

/-- What `recv_messages` of both parties makes of a message that arrives
whole: its lines. -/
def messageLines (message : Text) : Option (List Text) :=
  match readMessage maxRecvSize [.data message, .closed] with
  | .returned m => some (tokens '\n' m)
  | _ => none

/-- A message that fits into the buffer has the lines it was made of. -/
theorem messageLines_wire {ls : List Text} (hl : ∀ l ∈ ls, IsLine l ∧ l ≠ closeWord) (ended : Bool)
    (hfit : (lineText ls).length < maxRecvSize) : messageLines (wire ls ended) = some ls := by
  have hline : ∀ l ∈ ls, IsLine l := fun l h => (hl l h).1
  have hread := readMessageFrom_pieces maxRecvSize [wire ls ended] []
  rw [List.flatMap_singleton, cstr_eq_self (nul_not_mem_wire hline ended), tokens_wire hline,
    storeTokens_of_fits _ ls [] (fun l h => (hl l h).2) (by simpa using hfit)] at hread
  rw [messageLines, readMessage]
  simp only [List.map_cons, List.map_nil, List.cons_append, List.nil_append] at hread
  rw [hread]
  simp only [tokens_lineText hline]

/-- **When a message is read right.** A message of lines, none of them the
word `close`, arrives in any pieces and then the connection is closed:
`read_message` stores those lines, each with its newline, exactly when every
cut between two pieces has a newline on one of its sides and the text with
all its newlines is shorter than the buffer. -/
theorem readMessage_iff {ls : List Text} (hl : ∀ l ∈ ls, IsLine l ∧ l ≠ closeWord) (ended : Bool)
    {ps : List (List Char)} (hps : ps.flatten = wire ls ended) (hp : ∀ p ∈ ps, p ≠ []) :
    readMessage maxRecvSize (ps.map .data ++ [.closed]) = .returned (lineText ls) ↔
      CleanCuts ps ∧ (lineText ls).length < maxRecvSize := by
  have hline : ∀ l ∈ ls, IsLine l := fun l h => (hl l h).1
  have hnl : ∀ l ∈ ls, '\n' ∉ l := fun l h => (hline l h).2.1
  have hcstr : ps.flatMap (fun p => tokens '\n' (cstr p)) = ps.flatMap (tokens '\n') := by
    apply List.flatMap_congr
    intro p hp
    rw [cstr_eq_self fun h0 => nul_not_mem_wire hline ended (hps ▸ List.mem_flatten.mpr ⟨p, hp, h0⟩)]
  obtain ⟨hclean, -, hdirty⟩ := tokens_pieces hp
  rw [hps, tokens_wire hline] at hclean hdirty
  rw [readMessage, readMessageFrom_pieces, hcstr]
  set ts := ps.flatMap (tokens '\n') with hts
  have htsnl : ∀ t ∈ ts, '\n' ∉ t := fun t ht => by
    obtain ⟨p, -, htp⟩ := List.mem_flatMap.mp ht
    exact newline_not_mem_tokens htp
  constructor
  · intro h
    cases hst : storeTokens maxRecvSize [] ts with
    | overrun =>
      rw [hst] at h
      cases h
    | more m =>
      rw [hst] at h
      obtain rfl : m = lineText ls := by simpa using h
      obtain ⟨htext, hfit⟩ := storeTokens_more hst
      rw [List.nil_append] at htext
      have hcount : ts.length = ls.length := by
        rw [← length_eq_count_lineText htsnl, ← htext, length_eq_count_lineText hnl]
      refine ⟨?_, ?_⟩
      · by_contra hc
        have := hdirty hc
        omega
      · by_cases hnil : ts = []
        · rw [hnil] at htext
          rw [htext]
          decide
        · exact hfit hnil
    | close m =>
      -- the word `close` was read, so its letters are missing
      rw [hst] at h
      obtain rfl : m = lineText ls := by simpa using h
      obtain ⟨a, b, hab, htext⟩ := storeTokens_close hst
      rw [List.nil_append] at htext
      have h1 : ts.flatten = ls.flatten := by
        rw [hts, flatten_pieces, hps, ← flatten_tokens, tokens_wire hline]
      have h2 : a.flatten = ls.flatten := by
        rw [← filter_lineText fun t ht => htsnl t (hab ▸ List.mem_append_left _ ht), ← htext, filter_lineText hnl]
      rw [← h2, hab, List.flatten_append, List.flatten_cons] at h1
      have hlen := congrArg List.length h1
      have hclose : closeWord.length = 5 := rfl
      rw [List.length_append, List.length_append, hclose] at hlen
      omega
  · rintro ⟨hcl, hfit⟩
    rw [hclean hcl, storeTokens_of_fits _ ls [] (fun l h => (hl l h).2) (by simpa using hfit)]
    rfl

/-- A line that arrives in two pieces is read as two lines. -/
theorem readMessage_cut_line :
    (∀ l ∈ [['a', 'b']], IsLine l ∧ l ≠ closeWord) ∧ (∀ p ∈ [['a'], ['b', '\n']], p ≠ []) ∧
    [['a'], ['b', '\n']].flatten = wire [['a', 'b']] true ∧
    readMessage maxRecvSize ([['a'], ['b', '\n']].map .data ++ [.closed]) = .returned ['a', '\n', 'b', '\n'] ∧
    readMessage maxRecvSize ([['a'], ['b', '\n']].map .data ++ [.closed]) ≠ .returned (lineText [['a', 'b']]) := by
  decide

/-- Two lines, divided between them, are read as they were sent. -/
theorem readMessage_iff_whole :
    readMessage maxRecvSize ([['a', 'b', '\n'], ['c', '\n']].map .data ++ [.closed]) =
      .returned (lineText [['a', 'b'], ['c']]) :=
  (@readMessage_iff [['a', 'b'], ['c']] (by decide) true _ (by decide) (by decide)).mpr
    ⟨by simp [CleanCuts], by decide⟩

end Potato
end Csc501

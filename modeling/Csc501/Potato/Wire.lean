/-
# What the parties of the game write to each other

The prefixes of `hw3/utils.h`, the texts the parties compose with `sprintf`
and what they take out of them with `sscanf` and the loop over the commas of
a route. Each text is read back as what was put into it: a number
(`scanNumber_decimal`), a neighbour with its address (`scanNeighbor_addrText`),
the hop limit and the number of hops made (`scanNumber_routeText`,
`countFields_hopsText`); and a player who writes itself behind a route makes
the text of the longer route (`appendHop_routeText`).

Key definitions: `Addr`, `infoText`, `routeText`, `scanNumber`,
`scanNeighbor`, `countFields`, `appendHop`.
-/
import Csc501.Potato.Message

namespace Csc501
namespace Potato

open Lib

def maxHops : ℕ := 10000
def maxHopsStrlen : ℕ := 5
def maxPlayers : ℕ := 1000

def connectPrefix : Text := "CONNECT:".toList
def idPrefix : Text := "YOUARE:".toList
def leftAddressPrefix : Text := "LADDR:".toList
def rightAddressPrefix : Text := "RADDR:".toList
def routePrefix : Text := "ROUTE:".toList
def closeText : Text := "CLOSE".toList

/-- `begins_with`. -/
def beginsWith (string compare : Text) : Bool := compare.isPrefixOf string

/-- `mod`: the remainder of C, made non-negative. -/
def mod (a b : ℤ) : ℤ := if a.tmod b < 0 then a.tmod b + b else a.tmod b

/-! ### Addresses -/

/-- The text of a numeric IPv4 host. -/
def HostOk (t : Text) : Prop := t ≠ [] ∧ t.length ≤ 15 ∧ ∀ c ∈ t, c.isDigit = true ∨ c = '.'

instance (t : Text) : Decidable (HostOk t) :=
  haveI : Decidable (∀ c ∈ t, c.isDigit = true ∨ c = '.') := List.decidableBAll _ _
  inferInstanceAs (Decidable (_ ∧ _ ∧ _))

/-- A numeric IPv4 host, as `getnameinfo` prints it. -/
structure Host where
  text : Text
  ok : HostOk text
  deriving DecidableEq

/-- A `struct addrinfo *`: where a listener is. -/
structure Addr where
  host : Host
  port : ℕ
  port_le : port ≤ 65535
  deriving DecidableEq

/-- `gethostaddrinfo` of a numeric host: it is its own address. A port that is none, which
the C library wraps around, is outside of the model; no listener has one. -/
def gethostaddrinfo (hostname : Text) (port : ℤ) : Option Addr :=
  if h : HostOk hostname ∧ 0 ≤ port ∧ port.toNat ≤ 65535 then
    some ⟨⟨hostname, h.1⟩, port.toNat, h.2.2⟩
  else none

@[simp] theorem gethostaddrinfo_addr (a : Addr) : gethostaddrinfo a.host.text a.port = some a := by
  have h : HostOk a.host.text ∧ (0 : ℤ) ≤ a.port ∧ (a.port : ℤ).toNat ≤ 65535 :=
    ⟨a.host.ok, by omega, by simpa using a.port_le⟩
  rw [gethostaddrinfo, dif_pos h]
  simp

/-! ### The texts -/

/-- A player's number and address: `"%d:%s:%s"`. -/
def addrText (n : ℕ) (a : Addr) : Text := decimal n ++ ':' :: (a.host.text ++ ':' :: decimal a.port)

/-- The line that tells a player its number. -/
def idLine (n : ℕ) : Text := idPrefix ++ decimal n

/-- The lines that tell a player its neighbours. -/
def leftLine (n : ℕ) (a : Addr) : Text := leftAddressPrefix ++ addrText n a
def rightLine (n : ℕ) (a : Addr) : Text := rightAddressPrefix ++ addrText n a

/-- The message `send_info_to_player` composes. -/
def infoText (n left : ℕ) (leftAddr : Addr) (right : ℕ) (rightAddr : Addr) : Text :=
  idLine n ++ '\n' :: (leftLine left leftAddr ++ '\n' :: (rightLine right rightAddr ++ ['\n']))

/-- The message of `send_player_info`. -/
def connectText (port : ℕ) : Text := connectPrefix ++ decimal port ++ ['\n']

/-- The numbers of a route, `"%d,%d,..."`. -/
def hopsText (hs : List ℕ) : Text := [','].intercalate (hs.map decimal)

/-- The message the master starts a potato with: `"%s%0*d:\n"`. -/
def potatoText (hops : ℕ) : Text := routePrefix ++ zeroPad maxHopsStrlen hops ++ [':', '\n']

/-- The text of a potato with the hop limit `hops` that made the hops `hs`. -/
def routeText (hops : ℕ) (hs : List ℕ) : Text :=
  routePrefix ++ zeroPad maxHopsStrlen hops ++ ':' :: hopsText hs

/-! ### Taking them apart -/

/-- `sscanf(token, "%*[^:]:%d", &n)`. -/
def scanNumber (token : Text) : Option ℤ := do
  let (_, s) ← scanUntil ':' token
  let s ← scanChar ':' s
  let (n, _) ← scanInt s
  pure n

/-- `sscanf(token, "%[^:]:%d:%[^:]:%d", prefix, &n, host, &port)`. -/
def scanNeighbor (token : Text) : Option (Text × ℤ × Text × ℤ) := do
  let (tag, s) ← scanUntil ':' token
  let s ← scanChar ':' s
  let (n, s) ← scanInt s
  let s ← scanChar ':' s
  let (host, s) ← scanUntil ':' s
  let s ← scanChar ':' s
  let (port, _) ← scanInt s
  pure (tag, n, host, port)

/-- The loop of a player over the fields of a route: `strcspn` to the next
comma, count the field if it is not empty, stop at the NUL. The fuel is the
length of the text. -/
def countFieldsFrom : ℕ → Text → ℕ → ℕ
  | 0, _, i => i
  | fuel + 1, s, i =>
    let fieldLen := (s.takeWhile (· ≠ ',')).length
    let s' := if fieldLen > 0 then s.drop fieldLen else s
    let i' := if fieldLen > 0 then i + 1 else i
    match s' with
    | [] => i'
    | _ :: s'' => countFieldsFrom fuel s'' i'

def countFields (s : Text) : ℕ := countFieldsFrom (s.length + 1) s 0

/-- `token + strlen(ROUTE_PREFIX) + MAX_HOPS_STRLEN + 1`: the hops of a route. -/
def hopsPart (token : Text) : Text := token.drop (routePrefix.length + maxHopsStrlen + 1)

/-- The message a player builds: `"%s%d"` for the first hop, `"%s,%d"` later. -/
def appendHop (token : Text) (i : ℕ) (playerNumber : Text) : Text :=
  if i = 0 then token ++ playerNumber else token ++ ',' :: playerNumber

theorem scanNumber_tag {tag s : Text} (hne : tag ≠ []) (htag : ':' ∉ tag) :
    scanNumber (tag ++ ':' :: s) = (scanInt s).map Prod.fst := by
  rw [scanNumber, scanUntil_append hne htag]
  cases h : scanInt s <;> simp [scanChar, h]

/-- A number behind a prefix is read back. -/
theorem scanNumber_decimal {t : Text} (hne : t ≠ []) (ht : ':' ∉ t) (n : ℕ) :
    scanNumber (t ++ ':' :: decimal n) = some (n : ℤ) := by
  have h := scanInt_decimal n (r := []) (by simp)
  rw [List.append_nil] at h
  rw [scanNumber_tag hne ht, h]
  rfl

theorem colon_not_mem_host (h : Host) : ':' ∉ h.text := by
  intro hc
  rcases h.ok.2.2 _ hc with h | h
  · exact absurd h (by decide)
  · exact absurd h (by decide)

/-- A neighbour behind a prefix is read back. -/
theorem scanNeighbor_addrText {t : Text} (hne : t ≠ []) (ht : ':' ∉ t) (n : ℕ) (a : Addr) :
    scanNeighbor (t ++ ':' :: addrText n a) = some (t, (n : ℤ), a.host.text, (a.port : ℤ)) := by
  have h1 := scanInt_decimal n (r := ':' :: (a.host.text ++ ':' :: decimal a.port)) (by simp)
  have h2 := scanUntil_append (r := decimal a.port) a.host.ok.1 (colon_not_mem_host a.host)
  have h3 := scanInt_decimal a.port (r := []) (by simp)
  rw [List.append_nil] at h3
  rw [scanNeighbor, scanUntil_append hne ht]
  simp [scanChar, addrText, h1, h2, h3]

/-- In a line without an address nothing follows the number. -/
theorem scanNeighbor_idLine (n : ℕ) : scanNeighbor (idLine n) = none := by
  have h := scanInt_decimal n (r := []) (by simp)
  have hid : idLine n = "YOUARE".toList ++ ':' :: decimal n := rfl
  rw [List.append_nil] at h
  rw [scanNeighbor, hid, scanUntil_append (by simp) (by simp)]
  simp [scanChar, h]

theorem scanNeighbor_leftLine (n : ℕ) (a : Addr) :
    scanNeighbor (leftLine n a) = some ("LADDR".toList, (n : ℤ), a.host.text, (a.port : ℤ)) :=
  scanNeighbor_addrText (t := "LADDR".toList) (by simp) (by simp) n a

theorem scanNeighbor_rightLine (n : ℕ) (a : Addr) :
    scanNeighbor (rightLine n a) = some ("RADDR".toList, (n : ℤ), a.host.text, (a.port : ℤ)) :=
  scanNeighbor_addrText (t := "RADDR".toList) (by simp) (by simp) n a

/-- The hop limit is read back. -/
theorem scanNumber_routeText (hops : ℕ) (hs : List ℕ) : scanNumber (routeText hops hs) = some (hops : ℤ) := by
  have htag : routePrefix = "ROUTE".toList ++ [':'] := rfl
  have h := scanInt_zeroPad maxHopsStrlen hops (r := ':' :: hopsText hs) (by simp)
  rw [routeText, htag, List.append_assoc, List.append_assoc, List.singleton_append,
    scanNumber_tag (by simp) (by simp), h]
  rfl

theorem countFieldsFrom_eq : ∀ (fuel : ℕ) (s : Text) (i : ℕ), s.length < fuel →
    countFieldsFrom fuel s i = i + (tokens ',' s).length
  | 0, _, _, h => by omega
  | fuel + 1, s, i, h => by
    rw [countFieldsFrom]
    rcases exists_first_delim ',' s with hs | ⟨w, v, rfl, hw⟩
    · have htake : s.takeWhile (· ≠ ',') = s := List.takeWhile_eq_self_iff.mpr fun c hc => by
        have : c ≠ ',' := fun h' => hs (h' ▸ hc)
        simpa using this
      by_cases hne : s = []
      · subst hne; simp
      · have hpos : s.length > 0 := List.length_pos_iff.mpr hne
        simp only [htake, hpos, ↓reduceIte, List.drop_length, tokens_word hne hs, List.length_singleton]
    · have hpos : ∀ c ∈ w, (c ≠ ',' : Bool) = true := fun c hc => by
        have : c ≠ ',' := fun h' => hw (h' ▸ hc)
        simpa using this
      have htake : (w ++ ',' :: v).takeWhile (· ≠ ',') = w := by
        rw [List.takeWhile_append_of_pos hpos]; simp
      have hv : v.length < fuel := by
        simp only [List.length_append, List.length_cons] at h; omega
      by_cases hne : w = []
      · subst hne
        simpa [tokens_cons_self] using countFieldsFrom_eq fuel v i hv
      · have hlen : w.length > 0 := List.length_pos_iff.mpr hne
        simp only [htake, hlen, ↓reduceIte, List.drop_left, tokens_word_cons hne hw, List.length_cons]
        rw [countFieldsFrom_eq fuel v (i + 1) hv]
        omega

theorem comma_not_mem_decimal (n : ℕ) : ',' ∉ decimal n := fun h =>
  absurd (isDigit_decimal h) (by decide)

theorem tokens_hopsText (hs : List ℕ) : tokens ',' (hopsText hs) = hs.map decimal := by
  by_cases h : hs = []
  · subst h; simp [hopsText]
  · rw [tokens, hopsText, List.splitOn_intercalate]
    · apply List.filter_eq_self.mpr
      intro t ht
      obtain ⟨n, -, rfl⟩ := List.mem_map.mp ht
      simpa using decimal_ne_nil n
    · intro t ht
      obtain ⟨n, -, rfl⟩ := List.mem_map.mp ht
      exact comma_not_mem_decimal n
    · simpa using h

/-- The number of hops made is read back. -/
theorem countFields_hopsText (hs : List ℕ) : countFields (hopsText hs) = hs.length := by
  rw [countFields, countFieldsFrom_eq _ _ _ (Nat.lt_succ_self _), tokens_hopsText]
  simp

theorem length_zeroPad_hops {hops : ℕ} (h : hops ≤ maxHops) :
    (zeroPad maxHopsStrlen hops).length = maxHopsStrlen :=
  length_zeroPad (length_decimal_le (by decide) (lt_of_le_of_lt h (by decide)))

theorem hopsPart_routeText {hops : ℕ} (h : hops ≤ maxHops) (hs : List ℕ) :
    hopsPart (routeText hops hs) = hopsText hs := by
  have hlen : (routePrefix ++ zeroPad maxHopsStrlen hops ++ [':']).length =
      routePrefix.length + maxHopsStrlen + 1 := by
    rw [List.length_append, List.length_append, length_zeroPad_hops h]
    rfl
  have htext : routeText hops hs = (routePrefix ++ zeroPad maxHopsStrlen hops ++ [':']) ++ hopsText hs := by
    simp [routeText]
  rw [hopsPart, ← hlen, htext, List.drop_left]

theorem hopsText_concat (hs : List ℕ) (x : ℕ) : hopsText (hs ++ [x]) =
    if hs.length = 0 then hopsText hs ++ decimal x else hopsText hs ++ ',' :: decimal x := by
  induction hs with
  | nil => simp [hopsText]
  | cons h hs ih =>
    cases hs with
    | nil => simp [hopsText, List.intercalate_cons_cons]
    | cons k hs =>
      have h1 : hopsText (h :: k :: hs) = decimal h ++ ',' :: hopsText (k :: hs) := by
        simp [hopsText, List.intercalate_cons_cons]
      have h2 : hopsText (h :: (k :: hs) ++ [x]) = decimal h ++ ',' :: hopsText (k :: hs ++ [x]) := by
        simp [hopsText, List.intercalate_cons_cons]
      rw [h2, h1, ih]
      simp

/-- A player appends itself to the route. -/
theorem appendHop_routeText (hops : ℕ) (hs : List ℕ) (x : ℕ) :
    appendHop (routeText hops hs) hs.length (decimal x) = routeText hops (hs ++ [x]) := by
  rw [appendHop, routeText, routeText, hopsText_concat]
  split <;> simp

/-! ### The texts as messages -/

/-- Text that can stand in a line. -/
def Plain (t : Text) : Prop := '\n' ∉ t ∧ '\x00' ∉ t

instance (t : Text) : Decidable (Plain t) := inferInstanceAs (Decidable (_ ∧ _))

@[simp] theorem plain_append {s t : Text} : Plain (s ++ t) ↔ Plain s ∧ Plain t := by
  simp only [Plain, List.mem_append, not_or]
  tauto

@[simp] theorem plain_cons {c : Char} {t : Text} : Plain (c :: t) ↔ (c ≠ '\n' ∧ c ≠ '\x00') ∧ Plain t := by
  simp only [Plain, List.mem_cons, not_or, ne_eq, eq_comm (b := c)]
  tauto

theorem plain_of_isDigit {t : Text} (h : ∀ c ∈ t, c.isDigit = true) : Plain t :=
  ⟨fun hm => absurd (h _ hm) (by decide), fun hm => absurd (h _ hm) (by decide)⟩

@[simp] theorem plain_decimal (n : ℕ) : Plain (decimal n) := plain_of_isDigit fun _ h => isDigit_decimal h

@[simp] theorem plain_zeroPad (w n : ℕ) : Plain (zeroPad w n) := plain_of_isDigit fun _ h => isDigit_zeroPad h

@[simp] theorem plain_host (h : Host) : Plain h.text := by
  refine ⟨fun hm => ?_, fun hm => ?_⟩
  · exact absurd (h.ok.2.2 _ hm) (by decide)
  · exact absurd (h.ok.2.2 _ hm) (by decide)

@[simp] theorem plain_hopsText (hs : List ℕ) : Plain (hopsText hs) := by
  induction hs using List.reverseRecOn with
  | nil => exact ⟨by simp [hopsText], by simp [hopsText]⟩
  | append_singleton hs x ih =>
    rw [hopsText_concat]
    split <;> simp [ih]

/-- A line of one of the prefixes of the game. -/
theorem isLine_of_prefix {p t : Text} (hne : p ≠ []) (hp : Plain p) (hc : p.head? ≠ some 'c') (ht : Plain t) :
    IsLine (p ++ t) ∧ p ++ t ≠ closeWord := by
  have h := plain_append.mpr ⟨hp, ht⟩
  refine ⟨⟨by simp [hne], h.1, h.2⟩, fun h' => hc ?_⟩
  rw [← List.head?_append_of_ne_nil p hne, h']
  rfl

theorem length_decimal_player {n : ℕ} (h : n < maxPlayers) : (decimal n).length ≤ 3 :=
  length_decimal_le (by decide) h

theorem length_decimal_port (a : Addr) : (decimal a.port).length ≤ 5 :=
  length_decimal_le (by decide) (lt_of_le_of_lt a.port_le (by decide))

/-- A route of players' numbers, four characters for each. -/
theorem length_hopsText_le {hs : List ℕ} (h : ∀ x ∈ hs, x < maxPlayers) :
    (hopsText hs).length ≤ 4 * hs.length := by
  induction hs using List.reverseRecOn with
  | nil => simp [hopsText]
  | append_singleton hs x ih =>
    have hx := length_decimal_player (h x (by simp))
    have := ih fun y hy => h y (by simp [hy])
    rw [hopsText_concat]
    split <;> simp only [List.length_append, List.length_cons, List.length_nil] <;> omega

/-- The largest potato fits into the buffers of the game. -/
theorem length_routeText_lt {hops : ℕ} (h : hops ≤ maxHops) {hs : List ℕ} (hlen : hs.length ≤ hops)
    (hlt : ∀ x ∈ hs, x < maxPlayers) : (routeText hops hs).length + 1 < maxRecvSize := by
  have h1 := length_hopsText_le hlt
  have h2 := length_zeroPad_hops h
  have h3 : routePrefix.length = 6 := rfl
  simp only [routeText, List.length_append, List.length_cons]
  simp only [maxHops, maxHopsStrlen, maxRecvSize] at *
  omega

theorem messageLines_connectText (a : Addr) :
    messageLines (connectText a.port) = some [connectPrefix ++ decimal a.port] := by
  have hp := length_decimal_port a
  have hlen : connectPrefix.length = 8 := rfl
  have hw : connectText a.port = wire [connectPrefix ++ decimal a.port] true := by
    simp [connectText, wire]
  rw [hw]
  refine messageLines_wire (fun l hl => ?_) true ?_
  · obtain rfl := List.mem_singleton.mp hl
    exact isLine_of_prefix (by decide) (by decide) (by decide) (plain_decimal _)
  · simp only [lineText_cons, lineText_nil, List.length_append, List.length_cons, List.length_nil, maxRecvSize]
    omega

@[simp] theorem plain_addrText (n : ℕ) (a : Addr) : Plain (addrText n a) := by
  simp [addrText]

theorem length_addrText_le {n : ℕ} (h : n < maxPlayers) (a : Addr) : (addrText n a).length ≤ 25 := by
  have h1 := length_decimal_player h
  have h2 := length_decimal_port a
  have h3 := a.host.ok.2.1
  simp only [addrText, List.length_append, List.length_cons]
  omega

theorem messageLines_infoText {n left right : ℕ} (hn : n < maxPlayers) (hleft : left < maxPlayers)
    (hright : right < maxPlayers) (la ra : Addr) :
    messageLines (infoText n left la right ra) = some [idLine n, leftLine left la, rightLine right ra] := by
  have hw : infoText n left la right ra = wire [idLine n, leftLine left la, rightLine right ra] true := by
    simp [infoText, wire]
  rw [hw]
  refine messageLines_wire (fun l hl => ?_) true ?_
  · simp only [List.mem_cons, List.not_mem_nil, or_false] at hl
    rcases hl with rfl | rfl | rfl
    · exact isLine_of_prefix (by decide) (by decide) (by decide) (plain_decimal _)
    · exact isLine_of_prefix (by decide) (by decide) (by decide) (plain_addrText _ _)
    · exact isLine_of_prefix (by decide) (by decide) (by decide) (plain_addrText _ _)
  · have h1 := length_decimal_player hn
    have h2 := length_addrText_le hleft la
    have h3 := length_addrText_le hright ra
    have h4 : idPrefix.length = 7 := rfl
    have h5 : leftAddressPrefix.length = 6 := rfl
    have h6 : rightAddressPrefix.length = 6 := rfl
    simp only [lineText_cons, lineText_nil, idLine, leftLine, rightLine, List.length_append, List.length_cons,
      List.length_nil, maxRecvSize]
    omega

theorem isLine_routeText (hops : ℕ) (hs : List ℕ) : IsLine (routeText hops hs) ∧ routeText hops hs ≠ closeWord := by
  rw [routeText, List.append_assoc]
  exact isLine_of_prefix (by decide) (by decide) (by decide) (by simp)

theorem messageLines_routeText {hops : ℕ} {hs : List ℕ} (h : (routeText hops hs).length + 1 < maxRecvSize) :
    messageLines (routeText hops hs) = some [routeText hops hs] := by
  have hw : routeText hops hs = wire [routeText hops hs] false := by simp [wire]
  conv_lhs => rw [hw]
  refine messageLines_wire (fun l hl => ?_) false (by simpa using h)
  obtain rfl := List.mem_singleton.mp hl
  exact isLine_routeText hops hs

theorem messageLines_potatoText {hops : ℕ} (h : hops ≤ maxHops) :
    messageLines (potatoText hops) = some [routeText hops []] := by
  have hw : potatoText hops = wire [routeText hops []] true := by
    simp [wire, potatoText, routeText, hopsText]
  rw [hw]
  refine messageLines_wire (fun l hl => ?_) true ?_
  · obtain rfl := List.mem_singleton.mp hl
    exact isLine_routeText hops []
  · have hfit := @length_routeText_lt hops h [] (by simp) (by simp)
    simpa using hfit

theorem messageLines_closeText : messageLines closeText = some [closeText] := by decide

end Potato
end Csc501

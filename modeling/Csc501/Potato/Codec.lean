/-
# What is written is read back

The two formats of the game across the programs that write and read them. The
master tells a player its number and its neighbours in a message it composes in
several arrays of fixed size (`sendInfoToPlayer`); the player takes it apart line by
line (`takeMessage`). So each player gets to know who is next to it, and the players
form one ring (`ring_codec`).

A potato is written first by the master and then by each player in turn, and read by
the next one and at the end by the master (`route_codec`).

Key definitions: `sprintf`, `sendInfoToPlayer`, `handleLines`, `takeMessage`, `ScanFits`.
Key theorems: `sendInfoToPlayer_eq`, `takeMessage_infoText`, `iterate_right`, `ring_codec`,
`route_codec`.
-/
import Csc501.Potato.Master
import Csc501.Potato.Player

namespace Csc501
namespace Potato

open Lib

/-! ### Writing into arrays -/

def inet6Addrstrlen : ℕ := 46

/-- `sprintf` into an array of `n` bytes: the text and its NUL have to fit. -/
def sprintf (n : ℕ) (text : Text) : Option Text := if text.length < n then some text else none

theorem sprintf_of_lt {n : ℕ} {text : Text} (h : text.length < n) : sprintf n text = some text := if_pos h

/-- `getnameinfo`, asked for a numeric host and service. -/
def getnameinfo (a : Addr) (hostlen servlen : ℕ) : Option (Text × Text) := do
  let host ← sprintf hostlen a.host.text
  let service ← sprintf servlen (decimal a.port)
  some (host, service)

/-- `send_info_to_player`: where to, and the message. The arrays `host` and `service`
are used for both neighbours. -/
def sendInfoToPlayer (numPlayers : ℤ) (players : ℕ → Option Addr) (playerNumber : ℤ) : Option (Addr × Text) := do
  let playerAddress ← players playerNumber.toNat
  let leftPlayerNumber := mod (playerNumber - 1) numPlayers
  let rightPlayerNumber := mod (playerNumber + 1) numPlayers
  let leftAddress ← players leftPlayerNumber.toNat
  let rightAddress ← players rightPlayerNumber.toNat
  let (host, service) ← getnameinfo leftAddress inet6Addrstrlen 20
  let leftAddressStr ← sprintf 100 (decimalInt leftPlayerNumber ++ ':' :: (host ++ ':' :: service))
  let (host, service) ← getnameinfo rightAddress inet6Addrstrlen 20
  let rightAddressStr ← sprintf 100 (decimalInt rightPlayerNumber ++ ':' :: (host ++ ':' :: service))
  let str ← sprintf 250 (idPrefix ++ decimalInt playerNumber ++ '\n' :: (leftAddressPrefix ++ leftAddressStr ++
    '\n' :: (rightAddressPrefix ++ rightAddressStr ++ ['\n'])))
  some (playerAddress, str)

/-! ### Reading -/

/-- What `sscanf` stores of a neighbour's line fits into `prefix` and `host`. -/
def ScanFits (token : Text) : Prop :=
  ∀ tag n host port, scanNeighbor token = some (tag, n, host, port) →
    tag.length < leftAddressPrefix.length ∧ host.length < inet6Addrstrlen

/-- The loop of `recv_messages` over the lines of a message, with what each makes the
player do. -/
def handleLines (masterInfo : Addr) (left : Bool) (p : Player) : List Text → Option (Player × List Act)
  | [] => some (p, [])
  | token :: rest => do
    let (p, act) ← handleLine masterInfo left p token
    if act = .exit then some (p, [.exit])
    else do
      let (p, acts) ← handleLines masterInfo left p rest
      some (p, act :: acts)

/-- A message that a player accepts. -/
def takeMessage (masterInfo : Addr) (left : Bool) (p : Player) (message : Text) : Option (Player × List Act) := do
  let ls ← messageLines message
  handleLines masterInfo left p ls

/-! ### The ring -/

theorem mod_eq_emod (a : ℤ) {b : ℤ} (hb : 0 < b) : mod a b = a % b := by
  unfold mod
  have h1 := Int.emod_nonneg a hb.ne'
  have h2 := Int.emod_lt_of_pos a hb
  rw [Int.tmod_eq_emod]
  split_ifs with h
  · omega
  · omega
  · omega
  · omega

section Info

variable {c : Config}

theorem getnameinfo_eq (a : Addr) : getnameinfo a inet6Addrstrlen 20 = some (a.host.text, decimal a.port) := by
  have h1 := a.host.ok.2.1
  have h2 := length_decimal_port a
  rw [getnameinfo, sprintf_of_lt (by unfold inet6Addrstrlen; omega), sprintf_of_lt (by omega)]
  rfl

theorem mod_leftOf (i : ℕ) : mod ((i : ℤ) - 1) c.numPlayers = (leftOf c i : ℕ) := by
  have hpos : (0 : ℤ) < c.numPlayers := by exact_mod_cast c.players_pos
  exact (Int.toNat_of_nonneg (mod_nonneg hpos)).symm

theorem mod_rightOf (i : ℕ) : mod ((i : ℤ) + 1) c.numPlayers = (rightOf c i : ℕ) := by
  have hpos : (0 : ℤ) < c.numPlayers := by exact_mod_cast c.players_pos
  exact (Int.toNat_of_nonneg (mod_nonneg hpos)).symm

/-- **What `send_info_to_player` composes**: everything fits into its array. -/
theorem sendInfoToPlayer_eq {players : ℕ → Option Addr} {i : ℕ} (hi : i < c.numPlayers) {a la ra : Addr}
    (ha : players i = some a) (hla : players (leftOf c i) = some la) (hra : players (rightOf c i) = some ra) :
    sendInfoToPlayer c.numPlayers players i = some (a, infoText i (leftOf c i) la (rightOf c i) ra) := by
  have hl := (leftOf_lt (c := c) i).trans_le c.players_le
  have hr := (rightOf_lt (c := c) i).trans_le c.players_le
  have h1 := length_addrText_le hl la
  have h2 := length_addrText_le hr ra
  have h3 := length_decimal_player (hi.trans_le c.players_le)
  have hleft : sprintf 100 (decimal (leftOf c i) ++ ':' :: (la.host.text ++ ':' :: decimal la.port)) =
      some (addrText (leftOf c i) la) := sprintf_of_lt (by unfold addrText at h1; omega)
  have hright : sprintf 100 (decimal (rightOf c i) ++ ':' :: (ra.host.text ++ ':' :: decimal ra.port)) =
      some (addrText (rightOf c i) ra) := sprintf_of_lt (by unfold addrText at h2; omega)
  have hall : sprintf 250 (idPrefix ++ decimal i ++ '\n' :: (leftAddressPrefix ++ addrText (leftOf c i) la ++
      '\n' :: (rightAddressPrefix ++ addrText (rightOf c i) ra ++ ['\n']))) =
      some (infoText i (leftOf c i) la (rightOf c i) ra) := by
    have h4 : idPrefix.length = 7 := rfl
    have h5 : leftAddressPrefix.length = 6 := rfl
    have h6 : rightAddressPrefix.length = 6 := rfl
    refine sprintf_of_lt ?_
    simp only [List.length_append, List.length_cons, List.length_nil]
    omega
  simp only [sendInfoToPlayer, mod_leftOf, mod_rightOf, Int.toNat_natCast, decimalInt_natCast, ha, hla, hra,
    getnameinfo_eq, hleft, hright, hall, Option.bind_eq_bind, Option.bind_some]

/-- What `main` sends in its loop over the players is what `send_info_to_player` composes. -/
theorem sendNext_info {m m' : Master} {i first : ℕ} {a : Addr} {t : Text} (hpc : m.pc = .sendInfo i)
    (hi : i < c.numPlayers) (h : sendNext c m first = some (m', a, t)) :
    sendInfoToPlayer c.numPlayers m.players i = some (a, t) := by
  rcases sendNext_cases h with ⟨j, la, ra, hj, ha, hla, hra, -, rfl⟩ | ⟨hj, -⟩ | ⟨j, hj, -⟩
  · obtain rfl : i = j := by simpa [hpc] using hj
    exact sendInfoToPlayer_eq hi ha hla hra
  · rw [hpc] at hj
    exact absurd hj (by simp)
  · rw [hpc] at hj
    exact absurd hj (by simp)

/-- **What a player makes of it.** -/
theorem takeMessage_infoText (masterInfo : Addr) (choice : Bool) (p : Player) {i left right : ℕ}
    (hi : i < maxPlayers) (hleft : left < maxPlayers) (hright : right < maxPlayers) (la ra : Addr) :
    takeMessage masterInfo choice p (infoText i left la right ra) =
      some (⟨i, left, right, some la, some ra⟩, [.stay, .stay, .stay]) := by
  rw [takeMessage, messageLines_infoText hi hleft hright]
  simp [handleLines, handleLine_idLine, handleLine_leftLine, handleLine_rightLine]

/-- What is stored of a line with an address fits, if its tag does. -/
theorem scanFits_of_addr {l tag : Text} {n : ℤ} {a : Addr}
    (h : scanNeighbor l = some (tag, n, a.host.text, (a.port : ℤ)))
    (htag : tag.length < leftAddressPrefix.length) : ScanFits l := by
  intro tag' n' host' port' hscan
  obtain ⟨rfl, hrest⟩ := Prod.mk.inj (Option.some.inj (h.symm.trans hscan))
  obtain ⟨-, hrest⟩ := Prod.mk.inj hrest
  obtain ⟨rfl, -⟩ := Prod.mk.inj hrest
  exact ⟨htag, a.host.ok.2.1.trans_lt (by decide)⟩

/-- What is stored of its lines fits. -/
theorem scanFits_infoText {i left right : ℕ} (hi : i < maxPlayers) (hleft : left < maxPlayers)
    (hright : right < maxPlayers) (la ra : Addr) :
    ∃ ls, messageLines (infoText i left la right ra) = some ls ∧ ∀ l ∈ ls, ScanFits l := by
  refine ⟨_, messageLines_infoText hi hleft hright la ra, ?_⟩
  intro l hl
  simp only [List.mem_cons, List.not_mem_nil, or_false] at hl
  rcases hl with rfl | rfl | rfl
  · intro tag n host port hscan
    rw [scanNeighbor_idLine] at hscan
    cases hscan
  · exact scanFits_of_addr (scanNeighbor_leftLine left la) (by decide)
  · exact scanFits_of_addr (scanNeighbor_rightLine right ra) (by decide)

end Info

/-- Player `i` of `n` knows its number and those next to it, with their addresses. -/
structure Knows (n : ℕ) (addr : ℕ → Addr) (i : ℕ) (q : Player) : Prop where
  number : q.playerNumber = i
  left : q.leftPlayerNumber = ((i : ℤ) - 1) % n
  right : q.rightPlayerNumber = ((i : ℤ) + 1) % n
  leftAddr : q.leftAddrinfo = some (addr (((i : ℤ) - 1) % n).toNat)
  rightAddr : q.rightAddrinfo = some (addr (((i : ℤ) + 1) % n).toNat)

section Ring

variable {n : ℕ} {addr : ℕ → Addr} {q : ℕ → Player} (hq : ∀ i < n, Knows n addr i (q i))
include hq

theorem right_eq {i : ℕ} (hi : i < n) : (q i).rightPlayerNumber.toNat = (i + 1) % n := by
  rw [(hq i hi).right, ← Nat.cast_one, ← Nat.cast_add, ← Int.natCast_emod, Int.toNat_natCast]

/-- The left neighbour of the right neighbour. -/
theorem left_right {i : ℕ} (hi : i < n) :
    (q (q i).rightPlayerNumber.toNat).leftPlayerNumber = i := by
  have hn : 0 < n := Nat.zero_lt_of_lt hi
  rw [right_eq hq hi, (hq _ (Nat.mod_lt _ hn)).left]
  push_cast
  rw [Int.emod_sub_emod, add_sub_cancel_right]
  exact Int.emod_eq_of_lt (by omega) (by omega)

/-- Going to the right, `k` times. -/
theorem iterate_right {i : ℕ} (hi : i < n) : ∀ k, (fun j => (q j).rightPlayerNumber.toNat)^[k] i = (i + k) % n
  | 0 => by simp [Nat.mod_eq_of_lt hi]
  | k + 1 => by
    have hn : 0 < n := Nat.zero_lt_of_lt hi
    rw [Function.iterate_succ_apply', iterate_right hi k, right_eq hq (Nat.mod_lt _ hn)]
    rw [Nat.mod_add_mod, Nat.add_assoc]

/-- All the players are on the way to the right, and each of them once. -/
theorem right_visits {i : ℕ} (hi : i < n) :
    (∀ j < n, ∃ k < n, (fun j => (q j).rightPlayerNumber.toNat)^[k] i = j) ∧
      (∀ k, 0 < k → k < n → (fun j => (q j).rightPlayerNumber.toNat)^[k] i ≠ i) ∧
      (fun j => (q j).rightPlayerNumber.toNat)^[n] i = i := by
  have hn : 0 < n := Nat.zero_lt_of_lt hi
  refine ⟨?_, ?_, ?_⟩
  · intro j hj
    refine ⟨(j + n - i) % n, Nat.mod_lt _ hn, ?_⟩
    have hsum : i + (j + n - i) = j + n := by omega
    rw [iterate_right hq hi, Nat.add_mod_mod, hsum, Nat.add_mod_right, Nat.mod_eq_of_lt hj]
  · intro k h0 hk
    rw [iterate_right hq hi]
    rcases Nat.lt_or_ge (i + k) n with hlt | hge
    · rw [Nat.mod_eq_of_lt hlt]
      omega
    · rw [Nat.mod_eq_sub_mod hge, Nat.mod_eq_of_lt (by omega)]
      omega
  · rw [iterate_right hq hi, Nat.add_mod_right, Nat.mod_eq_of_lt hi]

end Ring

/-- **The set-up of the ring is read back.** Whatever the addresses of the players, each
message that `send_info_to_player` composes is one that the player it is for takes
apart into its own number and its neighbours' numbers and addresses. When all have
done so, the left neighbour of the right neighbour is oneself, and going to the right
from any player leads past all of them before it is back. -/
theorem ring_codec (c : Config) (addr : ℕ → Addr) (masterInfo : Addr) (choice : Bool) (p : ℕ → Player) :
    ∃ q : ℕ → Player,
      (∀ i < c.numPlayers, ∃ text ls,
        sendInfoToPlayer c.numPlayers (fun j => if j < c.numPlayers then some (addr j) else none) i =
          some (addr i, text) ∧
        messageLines text = some ls ∧ (∀ l ∈ ls, ScanFits l) ∧
        takeMessage masterInfo choice (p i) text = some (q i, [.stay, .stay, .stay]) ∧
        Knows c.numPlayers addr i (q i)) ∧
      (∀ i < c.numPlayers, (q (q i).rightPlayerNumber.toNat).leftPlayerNumber = i) ∧
      ∀ i < c.numPlayers,
        (∀ j < c.numPlayers, ∃ k < c.numPlayers, (fun j => (q j).rightPlayerNumber.toNat)^[k] i = j) ∧
        (∀ k, 0 < k → k < c.numPlayers → (fun j => (q j).rightPlayerNumber.toNat)^[k] i ≠ i) ∧
        (fun j => (q j).rightPlayerNumber.toNat)^[c.numPlayers] i = i := by
  have hpos : (0 : ℤ) < c.numPlayers := by exact_mod_cast c.players_pos
  let q : ℕ → Player := fun i =>
    ⟨i, leftOf c i, rightOf c i, some (addr (leftOf c i)), some (addr (rightOf c i))⟩
  have hq : ∀ i < c.numPlayers, Knows c.numPlayers addr i (q i) := by
    intro i _
    have hl : ((i : ℤ) - 1) % c.numPlayers = (leftOf c i : ℕ) := by
      rw [← mod_leftOf, mod_eq_emod _ hpos]
    have hr : ((i : ℤ) + 1) % c.numPlayers = (rightOf c i : ℕ) := by
      rw [← mod_rightOf, mod_eq_emod _ hpos]
    refine ⟨rfl, hl.symm, hr.symm, ?_, ?_⟩
    · rw [hl, Int.toNat_natCast]
    · rw [hr, Int.toNat_natCast]
  refine ⟨q, ?_, fun i hi => left_right hq hi, fun i hi => right_visits hq hi⟩
  intro i hi
  have hl := leftOf_lt (c := c) i
  have hr := rightOf_lt (c := c) i
  have h1 := hi.trans_le c.players_le
  have h2 := hl.trans_le c.players_le
  have h3 := hr.trans_le c.players_le
  obtain ⟨ls, hls, hfits⟩ := scanFits_infoText h1 h2 h3 (addr (leftOf c i)) (addr (rightOf c i))
  exact ⟨_, ls, sendInfoToPlayer_eq hi (if_pos hi) (if_pos hl) (if_pos hr), hls, hfits,
    takeMessage_infoText masterInfo choice (p i) h1 h2 h3 _ _, hq i hi⟩

/-! ### The route -/

/-- **The route is read back.** From the text of a potato with the hop limit `H` that
made the hops `L` a player gets the limit and the number of hops, what it sends on is
the text of the potato with itself behind them, and that goes to the master exactly at
the last hop; the master prints the hops. All these texts fit into the arrays. -/
theorem route_codec {H : ℕ} (hH : H ≤ maxHops) {L : List ℕ} (hlen : L.length < H) (hL : ∀ y ∈ L, y < maxPlayers)
    {x : ℕ} (hx : x < maxPlayers) :
    (scanNumber (routeText H L) = some (H : ℤ) ∧ countFields (hopsPart (routeText H L)) = L.length ∧
      appendHop (routeText H L) (countFields (hopsPart (routeText H L))) (decimal x) = routeText H (L ++ [x])) ∧
    (∀ masterInfo left (p : Player), p.playerNumber = (x : ℤ) → handleLine masterInfo left p (routeText H L) = some (p,
      if L.length + 1 = H then .send masterInfo (routeText H (L ++ [x]))
      else sendTo (if left then p.leftAddrinfo else p.rightAddrinfo) (routeText H (L ++ [x])))) ∧
    (∀ peer m rest, recvTokens peer m (routeText H L :: rest) =
      some ({ m with trace := m.trace ++ [hopsText L] }, true)) ∧
    (sprintf (routePrefix.length + maxHopsStrlen + 10) (potatoText H) = some (potatoText H) ∧
      messageLines (potatoText H) = some [routeText H []]) ∧
    (messageLines (routeText H L) = some [routeText H L] ∧ (routeText H L).length + 1 ≤ maxRecvSize ∧
      (routeText H (L ++ [x])).length + 1 ≤ maxRecvSize) := by
  have hL' : ∀ y ∈ L ++ [x], y < maxPlayers := by
    intro y hy
    rcases List.mem_append.mp hy with hy | hy
    · exact hL y hy
    · rw [List.mem_singleton.mp hy]
      exact hx
  have hfit := length_routeText_lt hH hlen.le hL
  have hlen' : (L ++ [x]).length ≤ H := by
    rw [List.length_append, List.length_singleton]
    omega
  have hfit' := length_routeText_lt hH hlen' hL'
  have hcount : countFields (hopsPart (routeText H L)) = L.length := by
    rw [hopsPart_routeText hH, countFields_hopsText]
  refine ⟨⟨scanNumber_routeText H L, hcount, ?_⟩, ?_, ?_, ⟨?_, messageLines_potatoText hH⟩, ?_⟩
  · rw [hcount, appendHop_routeText]
  · intro masterInfo left p hp
    exact handleLine_routeText masterInfo left p hH L hp (by omega)
  · intro peer m rest
    have h1 : beginsWith (routeText H L) routePrefix = true := rfl
    rw [recvTokens, if_pos h1, hopsPart_routeText hH]
  · apply sprintf_of_lt
    have h2 := length_zeroPad_hops hH
    simp only [potatoText, List.length_append, List.length_cons, List.length_nil]
    omega
  · exact ⟨messageLines_routeText hfit, by omega, by omega⟩

/-- The route with the most hops, at the last of them. -/
theorem route_codec_longest :
    (routeText maxHops (List.replicate (maxHops - 1) 999)).length + 1 ≤ maxRecvSize ∧
      countFields (hopsPart (routeText maxHops (List.replicate (maxHops - 1) 999))) = maxHops - 1 := by
  have hlen : (List.replicate (maxHops - 1) 999).length = maxHops - 1 := List.length_replicate
  have hlt : ∀ y ∈ List.replicate (maxHops - 1) 999, y < maxPlayers := by
    intro y hy
    rw [List.eq_of_mem_replicate hy]
    decide
  obtain ⟨⟨-, h1, -⟩, -, -, -, -, h2, -⟩ := route_codec le_rfl (hlen.trans_lt (by decide)) hlt
    (show 7 < maxPlayers by decide)
  exact ⟨h2, h1.trans hlen⟩

end Potato
end Csc501

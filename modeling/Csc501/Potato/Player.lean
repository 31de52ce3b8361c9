/-
# A player

`hw3/player.c`: a player takes the lines of a message one after the other.
`CLOSE` ends it, `YOUARE`, `LADDR` and `RADDR` tell it its number and its
neighbours, and a `ROUTE` it passes on, with itself appended, to a neighbour
or, at the last hop, to the master. Which neighbour is `randr`'s choice, here
the argument `left`.

A result `none` is a line the code cannot handle: a field `sscanf` does not
find is a variable that was never set, a message longer than its buffer is
written past the end of it.

Key definitions: `Player`, `handleLine`.
Key theorems: `handleLine_idLine`, `handleLine_leftLine`,
`handleLine_rightLine`, `handleLine_routeText`, `handleLine_closeText`.
-/
import Csc501.Potato.Message
import Csc501.Potato.Wire

namespace Csc501
namespace Potato

open Lib

/-- The globals of `player.c`; they start at zero. -/
structure Player where
  playerNumber : ℤ
  leftPlayerNumber : ℤ
  rightPlayerNumber : ℤ
  leftAddrinfo : Option Addr
  rightAddrinfo : Option Addr
  deriving DecidableEq

def Player.initial : Player := ⟨0, 0, 0, none, none⟩

/-- What a line makes a player do besides storing. -/
inductive Act
  | stay
  | exit
  | send (dest : Addr) (message : Text)
  deriving DecidableEq

/-- The branch for `YOUARE`; a line without a number leaves the old one. -/
def handleId (p : Player) (token : Text) : Player :=
  if beginsWith token idPrefix then
    match scanNumber token with
    | some n => { p with playerNumber := n }
    | none => p
  else p

/-- The branch for `LADDR` and `RADDR`. -/
def handleNeighbor (p : Player) (token : Text) : Option Player :=
  if beginsWith token leftAddressPrefix || beginsWith token rightAddressPrefix then do
    let (tag, n, host, port) ← scanNeighbor token
    if beginsWith leftAddressPrefix tag then
      let a ← gethostaddrinfo host port
      pure { p with leftAddrinfo := some a, leftPlayerNumber := n }
    else if beginsWith rightAddressPrefix tag then
      let a ← gethostaddrinfo host port
      pure { p with rightAddrinfo := some a, rightPlayerNumber := n }
    else pure p
  else some p

/-- `send_to`: it exits on a `NULL` address. -/
def sendTo (a : Option Addr) (message : Text) : Act :=
  match a with
  | some a => .send a message
  | none => .exit

/-- The branch for `ROUTE`. -/
def handleRoute (masterInfo : Addr) (left : Bool) (p : Player) (token : Text) : Option Act :=
  if beginsWith token routePrefix then do
    let hops ← scanNumber token
    let i := countFields (hopsPart token)
    let message := appendHop token i (decimalInt p.playerNumber)
    guard (message.length < maxRecvSize)
    if (i : ℤ) = hops - 1 then pure (sendTo (some masterInfo) message)
    else if left then pure (sendTo p.leftAddrinfo message)
    else pure (sendTo p.rightAddrinfo message)
  else some .stay

/-- One line of a message. -/
def handleLine (masterInfo : Addr) (left : Bool) (p : Player) (token : Text) : Option (Player × Act) :=
  if beginsWith token closeText then some (p, .exit)
  else do
    let p := handleId p token
    let p ← handleNeighbor p token
    let act ← handleRoute masterInfo left p token
    pure (p, act)

/-! ### The lines a player is sent -/

section Lines

variable (masterInfo : Addr) (left : Bool) (p : Player)

theorem handleLine_idLine (n : ℕ) :
    handleLine masterInfo left p (idLine n) = some ({ p with playerNumber := n }, .stay) := by
  have h : scanNumber (idLine n) = some (n : ℤ) :=
    scanNumber_decimal (t := "YOUARE".toList) (by simp) (by simp) n
  have hid : handleId p (idLine n) = { p with playerNumber := n } := by
    rw [handleId, h]
    rfl
  rw [handleLine, hid]
  rfl

/-- A line that is about a neighbour only. -/
theorem handleLine_of_neighbor {token : Text} {p' : Player} (hclose : ¬ beginsWith token closeText = true)
    (hid : handleId p token = p) (hroute : ¬ beginsWith token routePrefix = true)
    (hn : handleNeighbor p token = some p') : handleLine masterInfo left p token = some (p', .stay) := by
  have hact : handleRoute masterInfo left p' token = some .stay := by
    unfold handleRoute
    rw [if_neg hroute]
  unfold handleLine
  rw [if_neg hclose, hid]
  simp only [hn, hact, Option.bind_eq_bind, Option.bind_some, Option.pure_def]

theorem handleLine_leftLine (n : ℕ) (a : Addr) :
    handleLine masterInfo left p (leftLine n a) =
      some ({ p with leftAddrinfo := some a, leftPlayerNumber := n }, .stay) := by
  have h1 : beginsWith leftAddressPrefix "LADDR".toList = true := rfl
  have h2 : (beginsWith (leftLine n a) leftAddressPrefix ||
      beginsWith (leftLine n a) rightAddressPrefix) = true := rfl
  have hclose : ¬ beginsWith (leftLine n a) closeText = true := Bool.false_ne_true
  have hroute : ¬ beginsWith (leftLine n a) routePrefix = true := Bool.false_ne_true
  apply handleLine_of_neighbor masterInfo left p hclose rfl hroute
  unfold handleNeighbor
  rw [if_pos h2, scanNeighbor_leftLine, Option.bind_eq_bind, Option.bind_some]
  dsimp only
  rw [if_pos h1, gethostaddrinfo_addr]
  rfl

theorem handleLine_rightLine (n : ℕ) (a : Addr) :
    handleLine masterInfo left p (rightLine n a) =
      some ({ p with rightAddrinfo := some a, rightPlayerNumber := n }, .stay) := by
  have h0 : ¬ beginsWith leftAddressPrefix "RADDR".toList = true := Bool.false_ne_true
  have h1 : beginsWith rightAddressPrefix "RADDR".toList = true := rfl
  have h2 : (beginsWith (rightLine n a) leftAddressPrefix ||
      beginsWith (rightLine n a) rightAddressPrefix) = true := rfl
  have hclose : ¬ beginsWith (rightLine n a) closeText = true := Bool.false_ne_true
  have hroute : ¬ beginsWith (rightLine n a) routePrefix = true := Bool.false_ne_true
  apply handleLine_of_neighbor masterInfo left p hclose rfl hroute
  unfold handleNeighbor
  rw [if_pos h2, scanNeighbor_rightLine, Option.bind_eq_bind, Option.bind_some]
  dsimp only
  rw [if_neg h0, if_pos h1, gethostaddrinfo_addr]
  rfl

theorem handleLine_closeText : handleLine masterInfo left p closeText = some (p, .exit) := rfl

/-- A potato that made the hops `hs` goes on with one hop more: to the master
if that is the last one, else to a neighbour. -/
theorem handleLine_routeText {hops : ℕ} (h : hops ≤ maxHops) (hs : List ℕ) {n : ℕ} (hp : p.playerNumber = n)
    (hfit : (routeText hops (hs ++ [n])).length < maxRecvSize) :
    handleLine masterInfo left p (routeText hops hs) = some (p,
      if hs.length + 1 = hops then .send masterInfo (routeText hops (hs ++ [n]))
      else sendTo (if left then p.leftAddrinfo else p.rightAddrinfo) (routeText hops (hs ++ [n]))) := by
  have hid : handleId p (routeText hops hs) = p := rfl
  have hn : handleNeighbor p (routeText hops hs) = some p := rfl
  have hr : handleRoute masterInfo left p (routeText hops hs) = some
      (if hs.length + 1 = hops then .send masterInfo (routeText hops (hs ++ [n]))
        else sendTo (if left then p.leftAddrinfo else p.rightAddrinfo) (routeText hops (hs ++ [n]))) := by
    have h1 : beginsWith (routeText hops hs) routePrefix = true := rfl
    rw [handleRoute, if_pos h1, scanNumber_routeText, hopsPart_routeText h, countFields_hopsText, hp,
      decimalInt_natCast]
    simp only [Option.bind_eq_bind, Option.bind_some, appendHop_routeText, guard, if_pos hfit]
    by_cases hlast : hs.length + 1 = hops
    · have h2 : (hs.length : ℤ) = (hops : ℤ) - 1 := by omega
      simp [hlast, h2, sendTo]
    · have h2 : ¬ (hs.length : ℤ) = (hops : ℤ) - 1 := by omega
      cases left <;> simp [hlast, h2]
  rw [handleLine, if_neg (by simp [show beginsWith (routeText hops hs) closeText = false from rfl])]
  simp only [hid, hn, hr, Option.bind_eq_bind, Option.bind_some]
  rfl

end Lines

end Potato
end Csc501

/-
# The game

The master and its players with the messages between them. `send_to` puts a
message at the end of the receiver's inbox, whole and exactly once, and a
listener takes its inbox from the front; otherwise the parties step in any
order. A step of a player accepts a message or handles one line of it, with
the message that line makes it send.

Lines still to be handled (`todo`) are those in the player's hand and those in
its inbox, so accepting a message changes nothing that matters.

Key definitions: `Table`, `Game`, `game`, `Effect`, `todo`, `RouteAt`.
Key theorems: `step_effect`, `todo_deliver`.
-/
import Csc501.Potato.Master
import Csc501.Potato.Player

namespace Csc501
namespace Potato

open Lib

/-- Who plays: a configuration, where the master listens and where the players
do, as many as the master waits for. -/
structure Table extends Config where
  masterInfo : Addr
  seats : List Addr
  seats_length : seats.length = numPlayers
  seats_nodup : seats.Nodup
  master_not_mem : masterInfo ∉ seats

/-- A player's process: whether it sent its `CONNECT`, its globals, the lines
of the message in its hand, and whether it is gone. -/
structure Seat where
  connected : Bool
  player : Player
  pending : List Text
  exited : Bool

def Seat.start : Seat := ⟨false, Player.initial, [], false⟩

structure Game where
  master : Master
  seat : Addr → Seat
  inbox : Addr → List Envelope

def Game.start : Game := ⟨Master.start, fun _ => Seat.start, fun _ => []⟩

/-- `send_to`. -/
def Game.deliver (g : Game) (peer : Host) (dest : Addr) (message : Text) : Game :=
  { g with inbox := Function.update g.inbox dest (g.inbox dest ++ [⟨peer, message⟩]) }

def Game.setSeat (g : Game) (a : Addr) (p : Seat) : Game := { g with seat := Function.update g.seat a p }

inductive Party
  | master
  | player (a : Addr)
  deriving DecidableEq

/-- A step as it is seen: who makes it, what `randr` gave, the line or message
handled in it and the message sent. -/
structure Event where
  who : Party
  choice : ℕ
  handled : Option Text
  sent : Option (Addr × Text)

/-- The state after a step, with what is handled and sent in it. -/
abbrev Step := Game × Option Text × Option (Addr × Text)

section Steps

variable (T : Table)

/-- A step of the master: a message taken, or one sent. -/
def masterStep (g : Game) (choice : ℕ) : Option Step :=
  if g.master.Waits then
    match g.inbox T.masterInfo with
    | [] => none
    | e :: rest => do
      let m ← receive T.toConfig g.master e
      pure ({ g with master := m, inbox := Function.update g.inbox T.masterInfo rest }, some e.text, none)
  else do
    let (m, a, t) ← sendNext T.toConfig g.master choice
    pure (Game.deliver { g with master := m } T.masterInfo.host a t, none, some (a, t))

/-- A player handles the line in its hand; `randr(0, 1)` not zero is left. -/
def lineStep (g : Game) (a : Addr) (choice : ℕ) (line : Text) (rest : List Text) : Option Step := do
  let p := g.seat a
  let (q, act) ← handleLine T.masterInfo (choice ≠ 0) p.player line
  match act with
  | .stay => pure (g.setSeat a { p with player := q, pending := rest }, some line, none)
  | .exit => pure (g.setSeat a { p with player := q, pending := [], exited := true }, some line, none)
  | .send d t =>
    pure ((g.setSeat a { p with player := q, pending := rest }).deliver a.host d t, some line, some (d, t))

/-- A player takes the next message of its inbox. -/
def acceptStep (g : Game) (a : Addr) : Option Step :=
  match g.inbox a with
  | [] => none
  | e :: rest => do
    let ls ← messageLines e.text
    let g' : Game := { g with inbox := Function.update g.inbox a rest }
    pure (g'.setSeat a { g.seat a with pending := ls }, none, none)

/-- A step of a player: `send_player_info` first, then `recv_messages`. -/
def playerStep (g : Game) (a : Addr) (choice : ℕ) : Option Step :=
  if a ∉ T.seats ∨ (g.seat a).exited then none
  else if (g.seat a).connected = false then
    pure ((g.setSeat a { g.seat a with connected := true }).deliver a.host T.masterInfo (connectText a.port),
      none, some (T.masterInfo, connectText a.port))
  else
    match (g.seat a).pending with
    | line :: rest => lineStep T g a choice line rest
    | [] => acceptStep g a

def exec (g : Game) (who : Party) (choice : ℕ) : Option Step :=
  match who with
  | .master => masterStep T g choice
  | .player a => playerStep T g a choice

/-- The game. -/
def game : Lts Game Event where
  init g := g = Game.start
  step g e g' := exec T g e.who e.choice = some (g', e.handled, e.sent)

/-- A game played by a script: who steps, and what `randr` gives. -/
def play (g : Game) : List (Party × ℕ) → Option (List (Trans Game Event) × Game)
  | [] => some ([], g)
  | (who, n) :: script => do
    let (g', l, o) ← exec T g who n
    let (tr, g'') ← play g' script
    pure (⟨g, ⟨who, n, l, o⟩, g'⟩ :: tr, g'')

variable {T} in
theorem play_run : ∀ {script : List (Party × ℕ)} {g g' : Game} {tr : List (Trans Game Event)},
    play T g script = some (tr, g') → (game T).Run g tr g'
  | [], g, g', tr, h => by
    obtain ⟨rfl, rfl⟩ := Prod.mk.inj (Option.some.inj h)
    exact .nil _
  | (who, n) :: script, g, g', tr, h => by
    simp only [play, Option.bind_eq_bind, Option.bind_eq_some_iff, Option.pure_def, Option.some.injEq,
      Prod.mk.injEq] at h
    obtain ⟨⟨g₁, l, o⟩, hex, ⟨tr', g₂⟩, hplay, rfl, rfl⟩ := h
    exact (Lts.Run.single (M := game T) (a := ⟨who, n, l, o⟩) hex).trans (play_run hplay)

end Steps

/-! ### What a step does -/

/-- The steps of the game, one constructor for each kind. -/
inductive Effect (T : Table) (g : Game) : Event → Game → Prop
  | take {n : ℕ} {e : Envelope} {rest : List Envelope} {m : Master} (hw : g.master.Waits)
      (hin : g.inbox T.masterInfo = e :: rest) (hr : receive T.toConfig g.master e = some m) :
      Effect T g ⟨.master, n, some e.text, none⟩
        { g with master := m, inbox := Function.update g.inbox T.masterInfo rest }
  | send {n : ℕ} {m : Master} {a : Addr} {t : Text} (hs : sendNext T.toConfig g.master n = some (m, a, t)) :
      Effect T g ⟨.master, n, none, some (a, t)⟩ (Game.deliver { g with master := m } T.masterInfo.host a t)
  | connect {a : Addr} {n : ℕ} (ha : a ∈ T.seats) (hc : (g.seat a).connected = false) :
      Effect T g ⟨.player a, n, none, some (T.masterInfo, connectText a.port)⟩
        ((g.setSeat a { g.seat a with connected := true }).deliver a.host T.masterInfo (connectText a.port))
  | accept {a : Addr} {n : ℕ} {e : Envelope} {rest : List Envelope} {ls : List Text} (ha : a ∈ T.seats)
      (hp : (g.seat a).pending = []) (hin : g.inbox a = e :: rest) (hl : messageLines e.text = some ls) :
      Effect T g ⟨.player a, n, none, none⟩
        (Game.setSeat { g with inbox := Function.update g.inbox a rest } a { g.seat a with pending := ls })
  | stay {a : Addr} {n : ℕ} {line : Text} {rest : List Text} {q : Player} (ha : a ∈ T.seats)
      (hx : (g.seat a).exited = false) (hp : (g.seat a).pending = line :: rest)
      (hl : handleLine T.masterInfo (n ≠ 0) (g.seat a).player line = some (q, .stay)) :
      Effect T g ⟨.player a, n, some line, none⟩ (g.setSeat a { g.seat a with player := q, pending := rest })
  | exit {a : Addr} {n : ℕ} {line : Text} {rest : List Text} {q : Player} (ha : a ∈ T.seats)
      (hx : (g.seat a).exited = false) (hp : (g.seat a).pending = line :: rest)
      (hl : handleLine T.masterInfo (n ≠ 0) (g.seat a).player line = some (q, .exit)) :
      Effect T g ⟨.player a, n, some line, none⟩
        (g.setSeat a { g.seat a with player := q, pending := [], exited := true })
  | pass {a d : Addr} {n : ℕ} {line t : Text} {rest : List Text} {q : Player} (ha : a ∈ T.seats)
      (hx : (g.seat a).exited = false) (hp : (g.seat a).pending = line :: rest)
      (hl : handleLine T.masterInfo (n ≠ 0) (g.seat a).player line = some (q, .send d t)) :
      Effect T g ⟨.player a, n, some line, some (d, t)⟩
        ((g.setSeat a { g.seat a with player := q, pending := rest }).deliver a.host d t)

theorem masterStep_effect {T : Table} {g g' : Game} {n : ℕ} {l : Option Text} {o : Option (Addr × Text)}
    (h : masterStep T g n = some (g', l, o)) : Effect T g ⟨.master, n, l, o⟩ g' := by
  unfold masterStep at h
  split at h
  · rename_i hw
    split at h
    · exact absurd h (by simp)
    · rename_i hin
      simp only [Option.bind_eq_bind, Option.bind_eq_some_iff, Option.pure_def, Option.some.injEq, Prod.mk.injEq] at h
      obtain ⟨m, hr, rfl, rfl, rfl⟩ := h
      exact .take hw hin hr
  · simp only [Option.bind_eq_bind, Option.bind_eq_some_iff, Option.pure_def, Option.some.injEq, Prod.mk.injEq] at h
    obtain ⟨⟨m, a, t⟩, hs, rfl, rfl, rfl⟩ := h
    exact .send hs

theorem playerStep_effect {T : Table} {g g' : Game} {a : Addr} {n : ℕ} {l : Option Text}
    {o : Option (Addr × Text)} (h : playerStep T g a n = some (g', l, o)) : Effect T g ⟨.player a, n, l, o⟩ g' := by
  unfold playerStep at h
  split at h
  · exact absurd h (by simp)
  · rename_i hgo
    simp only [not_or, not_not, Bool.not_eq_true] at hgo
    obtain ⟨ha, hx⟩ := hgo
    split at h
    · rename_i hc
      simp only [Option.pure_def, Option.some.injEq, Prod.mk.injEq] at h
      obtain ⟨rfl, rfl, rfl⟩ := h
      exact .connect ha hc
    · split at h
      · rename_i hp
        simp only [lineStep, Option.bind_eq_bind, Option.bind_eq_some_iff] at h
        obtain ⟨⟨q, act⟩, hl, h⟩ := h
        cases act with
        | stay =>
          simp only [Option.pure_def, Option.some.injEq, Prod.mk.injEq] at h
          obtain ⟨rfl, rfl, rfl⟩ := h
          exact .stay ha hx hp hl
        | exit =>
          simp only [Option.pure_def, Option.some.injEq, Prod.mk.injEq] at h
          obtain ⟨rfl, rfl, rfl⟩ := h
          exact .exit ha hx hp hl
        | send d t =>
          simp only [Option.pure_def, Option.some.injEq, Prod.mk.injEq] at h
          obtain ⟨rfl, rfl, rfl⟩ := h
          exact .pass ha hx hp hl
      · rename_i hp
        unfold acceptStep at h
        split at h
        · exact absurd h (by simp)
        · rename_i hin
          simp only [Option.bind_eq_bind, Option.bind_eq_some_iff, Option.pure_def, Option.some.injEq,
            Prod.mk.injEq] at h
          obtain ⟨ls, hl, rfl, rfl, rfl⟩ := h
          exact .accept ha hp hin hl

theorem step_effect {T : Table} {g g' : Game} {e : Event} (h : (game T).step g e g') : Effect T g e g' := by
  obtain ⟨who, n, l, o⟩ := e
  cases who with
  | master => exact masterStep_effect h
  | player a => exact playerStep_effect h

/-! ### What is on its way -/

/-- The lines of a message. -/
def linesOf (message : Text) : List Text := (messageLines message).getD []

/-- The lines a party has yet to handle. -/
def todo (g : Game) (a : Addr) : List Text := (g.seat a).pending ++ (g.inbox a).flatMap fun e => linesOf e.text

/-- A potato is in flight to `a` or in its hand, the `k`-th line from now. -/
def RouteAt (g : Game) (a : Addr) (k : ℕ) : Prop := ∃ l, (todo g a)[k]? = some l ∧ beginsWith l routePrefix

section Frame

variable (g : Game) (a b d : Addr)

@[simp] theorem deliver_master (p : Host) (t : Text) : (g.deliver p d t).master = g.master := rfl

@[simp] theorem deliver_seat (p : Host) (t : Text) : (g.deliver p d t).seat = g.seat := rfl

@[simp] theorem setSeat_master (p : Seat) : (g.setSeat a p).master = g.master := rfl

@[simp] theorem setSeat_inbox (p : Seat) : (g.setSeat a p).inbox = g.inbox := rfl

@[simp] theorem setSeat_seat_self (p : Seat) : (g.setSeat a p).seat a = p := by
  simp [Game.setSeat]

@[simp] theorem setSeat_seat_of_ne {a b : Addr} (h : b ≠ a) (p : Seat) : (g.setSeat a p).seat b = g.seat b := by
  simp [Game.setSeat, h]

theorem deliver_inbox (p : Host) (t : Text) :
    (g.deliver p d t).inbox b = if b = d then g.inbox d ++ [⟨p, t⟩] else g.inbox b :=
  Function.update_apply g.inbox d _ b

/-- A message adds its lines to what its receiver has to do. -/
theorem todo_deliver (p : Host) (t : Text) :
    todo (g.deliver p d t) b = todo g b ++ if b = d then linesOf t else [] := by
  rw [todo, deliver_seat, deliver_inbox]
  by_cases h : b = d
  · subst h
    simp [todo]
  · simp [todo, h]

/-- A change of one seat is nothing to the others. -/
theorem todo_setSeat_of_ne {a b : Addr} (h : b ≠ a) (p : Seat) : todo (g.setSeat a p) b = todo g b := by
  rw [todo, setSeat_seat_of_ne g h, setSeat_inbox, todo]

end Frame

end Potato
end Csc501

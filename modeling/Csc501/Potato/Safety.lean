/-
# One potato, on the ring, until it is back

The invariant of the game. It names what no state holds: who is which player,
how many of its three lines each player has handled, and where the potato is.
From these the lines every player has yet to handle follow (`expected`): the
rest of its three lines, then the potato if it is there, then `CLOSE`. The
order of the three is the whole argument: a player's inbox is a queue, and the
master sends the infos before the potato and `CLOSE` after its return.

Key definitions: `Ghost`, `expected`, `Inv`, `EventOk`.
Key theorems: `inv_step`, `potato_game_safe`.
-/
import Csc501.Potato.Game
import Mathlib.Data.List.Chain
import Mathlib.Data.List.Nodup
import Mathlib.Data.List.Perm.Subperm

namespace Csc501
namespace Potato

open Lib

/-- Where the potato is: not sent yet, on its way to or in the hand of a
player, on its way back, or received. It carries the hops it has made. -/
inductive Whereabouts
  | kept
  | held (n : ℕ) (hs : List ℕ)
  | back (peer : Host) (hs : List ℕ)
  | over (hs : List ℕ)

/-- What the invariant knows beside the state. -/
structure Ghost where
  ring : ℕ → Addr
  queue : List Addr
  told : ℕ → ℕ
  first : ℕ
  potato : Whereabouts

/-- The neighbours on the ring. -/
def Neighbor (c : Config) (x y : ℕ) : Prop := y = leftOf c x ∨ y = rightOf c x

/-- A walk on the ring from `first`. -/
structure Walk (c : Config) (first : ℕ) (hs : List ℕ) : Prop where
  head : hs.head? = some first
  chain : hs.IsChain (Neighbor c)
  lt : ∀ x ∈ hs, x < c.numPlayers

section Expected

variable (c : Config) (ring : ℕ → Addr) (γ : Ghost)

/-- The lines of the info for player `n`. -/
def infoLines (n : ℕ) : List Text :=
  [idLine n, leftLine (leftOf c n) (ring (leftOf c n)), rightLine (rightOf c n) (ring (rightOf c n))]

/-- What player `n` knows after `j` of these lines. -/
def known (n j : ℕ) : Player where
  playerNumber := if 1 ≤ j then n else 0
  leftPlayerNumber := if 2 ≤ j then leftOf c n else 0
  rightPlayerNumber := if 3 ≤ j then rightOf c n else 0
  leftAddrinfo := if 2 ≤ j then some (ring (leftOf c n)) else none
  rightAddrinfo := if 3 ≤ j then some (ring (rightOf c n)) else none

/-- The master has sent player `n` its info. -/
def infoSent : Pc → ℕ → Bool
  | .accepting, _ => false
  | .sendInfo i, n => n < i
  | _, _ => true

/-- The master has told player `n` to close. -/
def closeSent : Pc → ℕ → Bool
  | .closing i, n => n < i
  | .done, _ => true
  | _, _ => false

/-- The potato's line, if player `n` has it. -/
def potatoLines (n : ℕ) : List Text :=
  match γ.potato with
  | .held k hs => if k = n then [routeText c.hops hs] else []
  | _ => []

/-- The message the potato comes back with. -/
def backMail : List Envelope :=
  match γ.potato with
  | .back peer hs => [⟨peer, routeText c.hops hs⟩]
  | _ => []

/-- The lines player `n` has yet to handle. -/
def expected (pc : Pc) (n : ℕ) : List Text :=
  (if infoSent pc n then (infoLines c γ.ring n).drop (γ.told n) else []) ++ potatoLines c γ n ++
    if closeSent pc n then [closeText] else []

/-- The players registered. -/
def registered (k : ℕ) : List Addr := (List.range k).map ring

/-- The potato is where the master believes it to be. -/
def PotatoOk (pc : Pc) : Prop :=
  match γ.potato with
  | .kept => pc = .accepting ∨ (∃ i, pc = .sendInfo i) ∨ pc = .sendPotato
  | .held n hs => pc = .awaitRoute ∧ hs.length < c.hops ∧ Walk c γ.first (hs ++ [n])
  | .back _ hs => pc = .awaitRoute ∧ hs.length = c.hops ∧ Walk c γ.first hs
  | .over hs => ((∃ i, pc = .closing i) ∨ pc = .done) ∧ hs.length = c.hops ∧ Walk c γ.first hs

end Expected

/-! ### The events -/

/-- Player `a` handled the line `l`. -/
def Handled (evs : List Event) (a : Addr) (l : Text) : Prop := ∃ e ∈ evs, e.who = .player a ∧ e.handled = some l

/-- The master chose player `n` and sent it the potato. -/
def Chosen (T : Table) (e : Event) (n : ℕ) : Prop :=
  e.who = .master ∧ e.choice = n ∧ ∃ a, e.sent = some (a, potatoText T.hops)

/-- The master received the potato. -/
def Returned (e : Event) (t : Text) : Prop :=
  e.who = .master ∧ e.handled = some t ∧ beginsWith t routePrefix

/-- What a step of the game may be, after the steps `evs`. -/
structure EventOk (T : Table) (evs : List Event) (e : Event) : Prop where
  /-- A player handles a potato after its number and both its neighbours. -/
  informed : ∀ a l, e.who = .player a → e.handled = some l → beginsWith l routePrefix →
    ∀ p ∈ [idPrefix, leftAddressPrefix, rightAddressPrefix], ∃ l', Handled evs a l' ∧ beginsWith l' p
  /-- The potato the master receives made all its hops, from the player chosen
  and always to a neighbour. -/
  finished : ∀ t, Returned e t → ∃ first hs, t = routeText T.hops hs ∧ hs.length = T.hops ∧
    hs.head? = some first ∧ hs.IsChain (Neighbor T.toConfig) ∧ (∃ e' ∈ evs, Chosen T e' first) ∧
    ∀ e' ∈ evs, ∀ n, Chosen T e' n → n = first
  /-- `CLOSE` is sent after the potato is back. -/
  closing : ∀ a, e.sent = some (a, closeText) → ∃ e' ∈ evs, ∃ t, Returned e' t
  /-- No potato is sent after a `CLOSE`. -/
  running : ∀ a t, e.sent = some (a, t) → beginsWith t routePrefix →
    ∀ e' ∈ evs, ∀ b, e'.sent ≠ some (b, closeText)

/-! ### The invariant -/

/-- Who has connected, and who is registered as which player. -/
structure Roster (T : Table) (g : Game) (γ : Ghost) : Prop where
  players : ∀ n < g.master.playersConnected, g.master.players n = some (γ.ring n)
  nodup : (registered γ.ring g.master.playersConnected ++ γ.queue).Nodup
  seats : ∀ a ∈ registered γ.ring g.master.playersConnected ++ γ.queue, a ∈ T.seats
  connected : ∀ a ∈ T.seats, (g.seat a).connected = true ↔
    a ∈ registered γ.ring g.master.playersConnected ++ γ.queue
  filling : g.master.pc = .accepting → g.master.playersConnected < T.numPlayers
  filled : g.master.pc ≠ .accepting → g.master.playersConnected = T.numPlayers
  sending : ∀ i, g.master.pc = .sendInfo i ∨ g.master.pc = .closing i → i < T.numPlayers

/-- Player `n` has the lines expected before it and knows what it has read; if
it is gone, it was told to go and nothing is left. -/
def Served (T : Table) (g : Game) (γ : Ghost) (n : ℕ) : Prop :=
  if (g.seat (γ.ring n)).exited then closeSent g.master.pc n = true ∧ todo g (γ.ring n) = []
  else todo g (γ.ring n) = expected T.toConfig γ g.master.pc n ∧
    (g.seat (γ.ring n)).player = known T.toConfig γ.ring n (γ.told n)

/-- What everyone has yet to handle, and what the players know. -/
structure Mail (T : Table) (g : Game) (γ : Ghost) : Prop where
  master : g.inbox T.masterInfo =
    γ.queue.map (fun a => ⟨a.host, connectText a.port⟩) ++ backMail T.toConfig γ
  idle : ∀ a ∉ registered γ.ring g.master.playersConnected,
    (g.seat a).pending = [] ∧ (a ≠ T.masterInfo → g.inbox a = []) ∧ (g.seat a).exited = false ∧
      (g.seat a).player = Player.initial
  served : ∀ n < g.master.playersConnected, Served T g γ n
  told_le : ∀ n, γ.told n ≤ 3
  told_zero : ∀ n, infoSent g.master.pc n = false → γ.told n = 0
  potato : PotatoOk T.toConfig γ g.master.pc

/-- What the steps so far tell. -/
structure Log (T : Table) (evs : List Event) (k : ℕ) (γ : Ghost) : Prop where
  informed : ∀ n < k, ∀ l ∈ (infoLines T.toConfig γ.ring n).take (γ.told n), Handled evs (γ.ring n) l
  chosen : γ.potato ≠ .kept → ∃ e ∈ evs, Chosen T e γ.first
  first : ∀ e ∈ evs, ∀ n, Chosen T e n → γ.potato ≠ .kept ∧ n = γ.first
  returned : ∀ hs, γ.potato = .over hs → ∃ e ∈ evs, ∃ t, Returned e t
  closed : ∀ e ∈ evs, ∀ a, e.sent = some (a, closeText) → ∃ hs, γ.potato = .over hs

/-- The invariant. -/
structure Inv (T : Table) (evs : List Event) (g : Game) (γ : Ghost) : Prop where
  roster : Roster T g γ
  mail : Mail T g γ
  log : Log T evs g.master.playersConnected γ

section Facts

variable {T : Table} {evs : List Event} {g g' : Game} {γ γ' : Ghost}

theorem mem_registered {k : ℕ} {a : Addr} : a ∈ registered γ.ring k ↔ ∃ n < k, γ.ring n = a := by
  simp [registered]

theorem Roster.ring_inj (h : Roster T g γ) {n m : ℕ} (hn : n < g.master.playersConnected)
    (hm : m < g.master.playersConnected) (heq : γ.ring n = γ.ring m) : n = m := by
  have hnd := (List.nodup_append.mp h.nodup).1
  exact List.inj_on_of_nodup_map hnd (List.mem_range.mpr hn) (List.mem_range.mpr hm) heq

theorem Roster.ring_mem (h : Roster T g γ) {n : ℕ} (hn : n < g.master.playersConnected) :
    γ.ring n ∈ T.seats :=
  h.seats _ (List.mem_append_left _ (mem_registered.mpr ⟨n, hn, rfl⟩))

theorem Roster.ring_ne (h : Roster T g γ) {n : ℕ} (hn : n < g.master.playersConnected) :
    γ.ring n ≠ T.masterInfo := fun heq => T.master_not_mem (heq ▸ h.ring_mem hn)

/-- Once the ring is complete nobody is left over. -/
theorem Roster.complete (h : Roster T g γ) (hpc : g.master.pc ≠ .accepting) :
    γ.queue = [] ∧ ∀ a ∈ T.seats, a ∈ registered γ.ring g.master.playersConnected := by
  have hsub : List.Subperm (registered γ.ring g.master.playersConnected ++ γ.queue) T.seats :=
    h.nodup.subperm fun a ha => h.seats a ha
  have hlen : (registered γ.ring g.master.playersConnected).length = T.seats.length := by
    rw [T.seats_length, ← h.filled hpc, registered, List.length_map, List.length_range]
  have hq : γ.queue = [] := by
    have hle := hsub.length_le
    rw [List.length_append] at hle
    exact List.length_eq_zero_iff.mp (by omega)
  rw [hq, List.append_nil] at hsub
  exact ⟨hq, fun a ha => (hsub.perm_of_length_le hlen.ge).mem_iff.mpr ha⟩

theorem Roster.all_connected (h : Roster T g γ) (hpc : g.master.pc ≠ .accepting) {a : Addr} (ha : a ∈ T.seats) :
    (g.seat a).connected = true :=
  (h.connected a ha).mpr (List.mem_append_left _ ((h.complete hpc).2 a ha))

/-- A player with something in its hand is registered. -/
theorem Mail.player_of_pending (h : Mail T g γ) {a : Addr} {l : Text} {ls : List Text}
    (hp : (g.seat a).pending = l :: ls) : ∃ n < g.master.playersConnected, γ.ring n = a := by
  by_contra hno
  have := (h.idle a fun hm => hno (mem_registered.mp hm)).1
  rw [hp] at this
  exact absurd this (by simp)

theorem Mail.serving (h : Mail T g γ) {n : ℕ} (hn : n < g.master.playersConnected)
    (hx : (g.seat (γ.ring n)).exited = false) :
    todo g (γ.ring n) = expected T.toConfig γ g.master.pc n ∧
      (g.seat (γ.ring n)).player = known T.toConfig γ.ring n (γ.told n) := by
  have hs := h.served n hn
  rw [Served, if_neg (by simp [hx])] at hs
  exact hs

/-- A step that is nothing to player `n`, apart from lines it may add. -/
theorem Served.step {n : ℕ} {x : List Text} (h : Served T g γ n)
    (hseat : g'.seat (γ'.ring n) = g.seat (γ.ring n))
    (hknown : known T.toConfig γ'.ring n (γ'.told n) = known T.toConfig γ.ring n (γ.told n))
    (htodo : todo g' (γ'.ring n) = todo g (γ.ring n) ++ x)
    (hexp : expected T.toConfig γ' g'.master.pc n = expected T.toConfig γ g.master.pc n ++ x)
    (hclose : closeSent g.master.pc n = true → closeSent g'.master.pc n = true ∧ x = []) :
    Served T g' γ' n := by
  unfold Served at h ⊢
  rw [hseat, htodo, hexp, hknown]
  split_ifs at h ⊢
  · obtain ⟨hc, hx⟩ := hclose h.1
    rw [h.2, hx]
    exact ⟨hc, rfl⟩
  · exact ⟨by rw [h.1], h.2⟩

end Facts

/-! ### One line of a player -/

section Line

variable {T : Table} {g : Game} {γ : Ghost}

/-- What goes through a player's hands: the lines of its info, the potato, and
`CLOSE` at last. -/
theorem handle_info (left : Bool) {n j : ℕ} {l : Text} (h : (infoLines T.toConfig γ.ring n)[j]? = some l) :
    handleLine T.masterInfo left (known T.toConfig γ.ring n j) l = some (known T.toConfig γ.ring n (j + 1), .stay) := by
  match j, h with
  | 0, h =>
    obtain rfl : idLine n = l := by simpa [infoLines] using h
    rw [handleLine_idLine]
    rfl
  | 1, h =>
    obtain rfl : leftLine _ _ = l := by simpa [infoLines] using h
    rw [handleLine_leftLine]
    rfl
  | 2, h =>
    obtain rfl : rightLine _ _ = l := by simpa [infoLines] using h
    rw [handleLine_rightLine]
    rfl
  | j + 3, h => simp [infoLines] at h

/-- Without the info nothing is on its way. -/
theorem Mail.expected_nil (h : Mail T g γ) {n : ℕ} (hi : infoSent g.master.pc n = false) :
    expected T.toConfig γ g.master.pc n = [] := by
  have hp := h.potato
  have hclose : closeSent g.master.pc n = false := by
    cases hpc : g.master.pc <;> simp_all [infoSent, closeSent]
  have hpot : potatoLines T.toConfig γ n = [] := by
    unfold PotatoOk at hp
    unfold potatoLines
    split <;> rename_i hq
    · rw [hq] at hp
      rw [hp.1] at hi
      exact absurd hi (by simp [infoSent])
    · rfl
  simp [expected, hi, hclose, hpot]

/-- The three things a line can be. -/
inductive LineCase (T : Table) (g : Game) (γ : Ghost) (n choice : ℕ) (line : Text) :
    List Text → Player → Act → Prop
  | info (hi : infoSent g.master.pc n = true) (hj : γ.told n < 3)
      (hl : (infoLines T.toConfig γ.ring n)[γ.told n]? = some line) :
      LineCase T g γ n choice line
        ((infoLines T.toConfig γ.ring n).drop (γ.told n + 1) ++ potatoLines T.toConfig γ n ++
          if closeSent g.master.pc n then [closeText] else [])
        (known T.toConfig γ.ring n (γ.told n + 1)) .stay
  | last {hs : List ℕ} (hpot : γ.potato = .held n hs) (htold : γ.told n = 3)
      (hline : line = routeText T.hops hs) (hlast : hs.length + 1 = T.hops) :
      LineCase T g γ n choice line [] (known T.toConfig γ.ring n 3)
        (.send T.masterInfo (routeText T.hops (hs ++ [n])))
  | hop {hs : List ℕ} {m : ℕ} (hpot : γ.potato = .held n hs) (htold : γ.told n = 3)
      (hline : line = routeText T.hops hs) (hmore : hs.length + 1 < T.hops)
      (hm : Neighbor T.toConfig n m) :
      LineCase T g γ n choice line [] (known T.toConfig γ.ring n 3)
        (.send (γ.ring m) (routeText T.hops (hs ++ [n])))
  | close (hpot : potatoLines T.toConfig γ n = []) (htold : γ.told n = 3) (hline : line = closeText)
      (hc : closeSent g.master.pc n = true) :
      LineCase T g γ n choice line [] (known T.toConfig γ.ring n 3) .exit

theorem PotatoOk.fits {n : ℕ} {hs : List ℕ} {pc : Pc} (h : PotatoOk T.toConfig γ pc)
    (hpot : γ.potato = .held n hs) : (routeText T.hops (hs ++ [n])).length + 1 < maxRecvSize := by
  unfold PotatoOk at h
  rw [hpot] at h
  obtain ⟨-, hlen, hw⟩ := h
  refine length_routeText_lt T.hops_le ?_ fun x hx => lt_of_lt_of_le (hw.lt x hx) T.players_le
  rw [List.length_append, List.length_singleton]
  exact hlen

/-- The line in a player's hand is the next one expected, and says what the
player does. -/
theorem Mail.line_cases (h : Mail T g γ) {n choice : ℕ} {line : Text} {rest : List Text} {q : Player} {act : Act}
    (hn : n < g.master.playersConnected) (hx : (g.seat (γ.ring n)).exited = false)
    (hp : (g.seat (γ.ring n)).pending = line :: rest)
    (hl : handleLine T.masterInfo (choice ≠ 0) (g.seat (γ.ring n)).player line = some (q, act)) :
    LineCase T g γ n choice line (rest ++ (g.inbox (γ.ring n)).flatMap fun e => linesOf e.text) q act := by
  obtain ⟨htodo, hplayer⟩ := h.serving hn hx
  rw [todo, hp, List.cons_append] at htodo
  rw [hplayer] at hl
  have hi : infoSent g.master.pc n = true := by
    by_contra hne
    rw [h.expected_nil (by simpa using hne)] at htodo
    exact absurd htodo (by simp)
  rw [expected, if_pos hi] at htodo
  have hlen : (infoLines T.toConfig γ.ring n).length = 3 := rfl
  by_cases hj : γ.told n < 3
  · -- a line of the info
    have hget : γ.told n < (infoLines T.toConfig γ.ring n).length := hj
    rw [List.drop_eq_getElem_cons hget, List.cons_append, List.cons_append] at htodo
    obtain ⟨hline, hrest⟩ := List.cons.inj htodo
    have hsome : (infoLines T.toConfig γ.ring n)[γ.told n]? = some line := by
      rw [hline, List.getElem?_eq_getElem hget]
    rw [handle_info _ hsome] at hl
    obtain ⟨rfl, rfl⟩ := Prod.mk.inj (Option.some.inj hl)
    rw [hrest]
    exact .info hi hj hsome
  · have htold : γ.told n = 3 := le_antisymm (h.told_le n) (by omega)
    rw [htold, List.drop_of_length_le (by rw [hlen]), List.nil_append] at htodo
    rw [htold] at hl
    by_cases hpot : potatoLines T.toConfig γ n = []
    · -- the last line
      rw [hpot, List.nil_append] at htodo
      by_cases hc : closeSent g.master.pc n = true
      · rw [if_pos hc] at htodo
        obtain ⟨rfl, hrest⟩ := List.cons.inj htodo
        rw [handleLine_closeText] at hl
        obtain ⟨rfl, rfl⟩ := Prod.mk.inj (Option.some.inj hl)
        rw [hrest]
        exact .close hpot htold rfl hc
      · rw [if_neg hc] at htodo
        exact absurd htodo (by simp)
    · -- the potato; the master waits for it, so nothing comes behind it
      obtain ⟨hs, hheld⟩ : ∃ hs, γ.potato = .held n hs := by
        unfold potatoLines at hpot
        split at hpot
        · rename_i k hs hk
          by_cases hkn : k = n
          · exact ⟨hs, hkn ▸ hk⟩
          · exact absurd (if_neg hkn) hpot
        · exact absurd rfl hpot
      have hok := h.potato
      have hfit := hok.fits hheld
      unfold PotatoOk at hok
      rw [hheld] at hok
      obtain ⟨hpc, hlt, hwalk⟩ := hok
      have hlines : potatoLines T.toConfig γ n = [routeText T.hops hs] := by
        simp [potatoLines, hheld]
      rw [hlines, hpc] at htodo
      obtain ⟨rfl, hrest⟩ := List.cons.inj htodo
      have hempty : rest ++ (g.inbox (γ.ring n)).flatMap (fun e => linesOf e.text) = [] := hrest
      rw [handleLine_routeText _ _ _ T.hops_le hs (n := n) rfl (by omega)] at hl
      obtain ⟨rfl, hact⟩ := Prod.mk.inj (Option.some.inj hl)
      rw [hempty, ← hact]
      by_cases hlast : hs.length + 1 = T.hops
      · rw [if_pos hlast]
        exact .last hheld htold rfl hlast
      · rw [if_neg hlast]
        by_cases hleft : choice ≠ 0
        · rw [if_pos (by simpa using hleft)]
          exact .hop hheld htold rfl (by omega) (Or.inl rfl)
        · rw [if_neg (by simpa using hleft)]
          exact .hop hheld htold rfl (by omega) (Or.inr rfl)

end Line

/-! ### The steps of a player -/

section PlayerSteps

variable {T : Table} {evs : List Event} {g g' : Game} {γ γ' : Ghost}

theorem Roster.congr (h : Roster T g γ) (hm : g'.master = g.master) (hring : γ'.ring = γ.ring)
    (hq : γ'.queue = γ.queue) (hc : ∀ a ∈ T.seats, (g'.seat a).connected = (g.seat a).connected) :
    Roster T g' γ' := by
  have hreg : registered γ'.ring g'.master.playersConnected = registered γ.ring g.master.playersConnected := by
    rw [hring, hm]
  refine ⟨?_, ?_, ?_, fun a ha => ?_, ?_, ?_, ?_⟩
  · rw [hm, hring]; exact h.players
  · rw [hreg, hq]; exact h.nodup
  · rw [hreg, hq]; exact h.seats
  · rw [hreg, hq, hc a ha]; exact h.connected a ha
  · rw [hm]; exact h.filling
  · rw [hm]; exact h.filled
  · rw [hm]; exact h.sending

theorem setSeat_connected {a : Addr} {p : Seat} (hp : p.connected = (g.seat a).connected) (b : Addr) :
    ((g.setSeat a p).seat b).connected = (g.seat b).connected := by
  by_cases h : b = a
  · subst h; rw [setSeat_seat_self, hp]
  · rw [setSeat_seat_of_ne g h]

/-- A step that sends no potato, and no `CLOSE` too early, leaves the log as it is. -/
theorem Log.snoc {k : ℕ} {e : Event} (h : Log T evs k γ) (hc : ∀ n, ¬ Chosen T e n)
    (hs : ∀ a, e.sent = some (a, closeText) → ∃ hs, γ.potato = .over hs) : Log T (evs ++ [e]) k γ := by
  refine ⟨fun n hn l hl => ?_, fun hk => ?_, ?_, fun hs ho => ?_, ?_⟩
  · obtain ⟨e', he', hh⟩ := h.informed n hn l hl
    exact ⟨e', List.mem_append_left _ he', hh⟩
  · obtain ⟨e', he', hh⟩ := h.chosen hk
    exact ⟨e', List.mem_append_left _ he', hh⟩
  · intro e' he' n hn
    rcases List.mem_append.mp he' with he' | he'
    · exact h.first e' he' n hn
    · obtain rfl := List.mem_singleton.mp he'
      exact absurd hn (hc n)
  · obtain ⟨e', he', hh⟩ := h.returned hs ho
    exact ⟨e', List.mem_append_left _ he', hh⟩
  · intro e' he' a ha
    rcases List.mem_append.mp he' with he' | he'
    · exact h.closed e' he' a ha
    · obtain rfl := List.mem_singleton.mp he'
      exact hs a ha

theorem not_chosen_player {a : Addr} {m : ℕ} {l : Option Text} {o : Option (Addr × Text)} (n : ℕ) :
    ¬ Chosen T ⟨.player a, m, l, o⟩ n := fun h => absurd h.1 (by simp)

/-- Accepting a message only moves its lines. -/
theorem inv_accept (h : Inv T evs g γ) {a : Addr} {n : ℕ} {e : Envelope} {rest : List Envelope} {ls : List Text}
    (ha : a ∈ T.seats) (hp : (g.seat a).pending = []) (hin : g.inbox a = e :: rest)
    (hl : messageLines e.text = some ls) :
    Inv T (evs ++ [⟨.player a, n, none, none⟩])
      (Game.setSeat { g with inbox := Function.update g.inbox a rest } a { g.seat a with pending := ls }) γ := by
  set g' := Game.setSeat { g with inbox := Function.update g.inbox a rest } a { g.seat a with pending := ls } with hg'
  have hne : T.masterInfo ≠ a := fun heq => T.master_not_mem (heq ▸ ha)
  have hself : g'.seat a = { g.seat a with pending := ls } := by simp [hg']
  have hother : ∀ b, b ≠ a → g'.seat b = g.seat b ∧ g'.inbox b = g.inbox b := by
    intro b hb
    simp [hg', hb]
  have htodo : ∀ b, todo g' b = todo g b := by
    intro b
    by_cases hb : b = a
    · subst hb
      simp [todo, hp, hin, hg', linesOf, hl]
    · simp only [todo, hother b hb]
  have hseat : ∀ b, (g'.seat b).exited = (g.seat b).exited ∧ (g'.seat b).player = (g.seat b).player := by
    intro b
    by_cases hb : b = a
    · subst hb
      rw [hself]
      exact ⟨rfl, rfl⟩
    · rw [(hother b hb).1]
      exact ⟨rfl, rfl⟩
  have hreg : a ∈ registered γ.ring g.master.playersConnected := by
    by_contra hno
    have := (h.mail.idle a hno).2.1 (Ne.symm hne)
    rw [hin] at this
    exact absurd this (by simp)
  refine ⟨h.roster.congr rfl rfl rfl fun b _ => ?_, ⟨?_, ?_, ?_, h.mail.told_le, h.mail.told_zero, h.mail.potato⟩,
    h.log.snoc not_chosen_player (by simp)⟩
  · by_cases hb : b = a
    · subst hb; rw [hself]
    · rw [(hother b hb).1]
  · rw [(hother _ hne).2]
    exact h.mail.master
  · intro b hb
    have hba : b ≠ a := fun heq => hb (heq ▸ hreg)
    rw [(hother b hba).1, (hother b hba).2]
    exact h.mail.idle b hb
  · intro m hm
    have hm' := h.mail.served m hm
    unfold Served at hm' ⊢
    rw [htodo, (hseat _).1, (hseat _).2]
    exact hm'

/-- What a player has to do depends on its own part of the ghost only. -/
theorem expected_congr {c : Config} {pc : Pc} {n : ℕ} (hring : γ'.ring = γ.ring)
    (htold : γ'.told n = γ.told n) (hpot : potatoLines c γ' n = potatoLines c γ n) :
    expected c γ' pc n = expected c γ pc n := by
  rw [expected, expected, hpot, htold, hring]

theorem todo_setSeat_self (a : Addr) (p : Seat) :
    todo (g.setSeat a p) a = p.pending ++ (g.inbox a).flatMap fun e => linesOf e.text := by
  rw [todo, setSeat_seat_self, setSeat_inbox]

theorem beginsWith_infoLines {c : Config} {n : ℕ} {l : Text} (h : l ∈ infoLines c γ.ring n) :
    beginsWith l routePrefix = false := by
  simp only [infoLines, List.mem_cons, List.not_mem_nil, or_false] at h
  rcases h with rfl | rfl | rfl
  · rfl
  · rfl
  · rfl

/-- The next line of the info is in the log once it is handled. -/
theorem Log.tell {k i : ℕ} {e : Event} {line : Text} (h : Log T evs k γ) (hc : ∀ n, ¬ Chosen T e n)
    (hs : ∀ a, e.sent = some (a, closeText) → ∃ hs, γ.potato = .over hs) (hwho : e.who = .player (γ.ring i))
    (hline : e.handled = some line)
    (hget : (infoLines T.toConfig γ.ring i)[γ.told i]? = some line) :
    Log T (evs ++ [e]) k { γ with told := Function.update γ.told i (γ.told i + 1) } := by
  have h' := h.snoc hc hs
  refine ⟨fun n hn l hl => ?_, h'.chosen, h'.first, h'.returned, h'.closed⟩
  by_cases hni : n = i
  · subst hni
    have hl' : l ∈ (infoLines T.toConfig γ.ring n).take (γ.told n + 1) := by
      simpa using hl
    rw [List.take_add_one, hget] at hl'
    rcases List.mem_append.mp hl' with hl' | hl'
    · exact h'.informed n hn l hl'
    · obtain rfl : l = line := by simpa using hl'
      exact ⟨e, by simp, hwho, hline⟩
  · have hl' : l ∈ (infoLines T.toConfig γ.ring n).take (γ.told n) := by
      simpa [Function.update_of_ne hni] using hl
    exact h'.informed n hn l hl'

/-- A line of the info is handled. -/
theorem inv_stay (h : Inv T evs g γ) {a : Addr} {n : ℕ} {line : Text} {rest : List Text} {q : Player}
    (hx : (g.seat a).exited = false) (hp : (g.seat a).pending = line :: rest)
    (hl : handleLine T.masterInfo (n ≠ 0) (g.seat a).player line = some (q, .stay)) :
    EventOk T evs ⟨.player a, n, some line, none⟩ ∧ ∃ γ', Inv T (evs ++ [⟨.player a, n, some line, none⟩])
      (g.setSeat a { g.seat a with player := q, pending := rest }) γ' := by
  obtain ⟨i, hi, rfl⟩ := h.mail.player_of_pending hp
  have hcase := h.mail.line_cases hi hx hp hl
  generalize htail : rest ++ (g.inbox (γ.ring i)).flatMap (fun e => linesOf e.text) = tail at hcase
  cases hcase with
  | info hsent hj hline =>
    refine ⟨⟨?_, ?_, by simp, by simp⟩, { γ with told := Function.update γ.told i (γ.told i + 1) },
      h.roster.congr rfl rfl rfl fun b _ => setSeat_connected (by rfl) b,
      ⟨h.mail.master, fun b hb => ?_, fun m hm => ?_, fun m => ?_, fun m hm => ?_, h.mail.potato⟩,
      h.log.tell not_chosen_player (by simp) rfl rfl hline⟩
    · rintro b l - hb hr
      obtain rfl : line = l := by simpa using hb
      rw [beginsWith_infoLines (List.mem_of_getElem? hline)] at hr
      exact absurd hr (by simp)
    · rintro t ⟨hw, -⟩
      exact absurd hw (by simp)
    · have hba : b ≠ γ.ring i := fun heq => hb (mem_registered.mpr ⟨i, hi, heq.symm⟩)
      rw [setSeat_seat_of_ne g hba]
      exact h.mail.idle b hb
    · by_cases hmi : m = i
      · subst hmi
        unfold Served
        rw [setSeat_seat_self, todo_setSeat_self, if_neg (by simp [hx]), htail, expected, setSeat_master]
        simp only [hsent, if_true, Function.update_self]
        exact ⟨rfl, trivial⟩
      · have hne : γ.ring m ≠ γ.ring i := fun heq => hmi (h.roster.ring_inj hm hi heq)
        have htold := Function.update_of_ne hmi (γ.told i + 1) γ.told
        refine (h.mail.served m hm).step (x := []) (setSeat_seat_of_ne g hne _) ?_ ?_ ?_ fun hc => ⟨hc, rfl⟩
        · show known _ _ m (Function.update γ.told i (γ.told i + 1) m) = _
          rw [htold]
        · rw [List.append_nil]
          exact todo_setSeat_of_ne g hne _
        · rw [List.append_nil]
          exact expected_congr rfl htold rfl
    · by_cases hmi : m = i
      · subst hmi
        show Function.update γ.told m (γ.told m + 1) m ≤ 3
        rw [Function.update_self]
        exact hj
      · show Function.update γ.told i (γ.told i + 1) m ≤ 3
        rw [Function.update_of_ne hmi]
        exact h.mail.told_le m
    · have hmi : m ≠ i := by
        rintro rfl
        exact absurd hm (by simp [hsent])
      show Function.update γ.told i (γ.told i + 1) m = 0
      rw [Function.update_of_ne hmi]
      exact h.mail.told_zero m hm

/-- `CLOSE` is handled. -/
theorem inv_exit (h : Inv T evs g γ) {a : Addr} {n : ℕ} {line : Text} {rest : List Text} {q : Player}
    (hx : (g.seat a).exited = false) (hp : (g.seat a).pending = line :: rest)
    (hl : handleLine T.masterInfo (n ≠ 0) (g.seat a).player line = some (q, .exit)) :
    EventOk T evs ⟨.player a, n, some line, none⟩ ∧ ∃ γ', Inv T (evs ++ [⟨.player a, n, some line, none⟩])
      (g.setSeat a { g.seat a with player := q, pending := [], exited := true }) γ' := by
  obtain ⟨i, hi, rfl⟩ := h.mail.player_of_pending hp
  have hcase := h.mail.line_cases hi hx hp hl
  generalize htail : rest ++ (g.inbox (γ.ring i)).flatMap (fun e => linesOf e.text) = tail at hcase
  cases hcase with
  | close hpot htold hline hc =>
    refine ⟨⟨?_, ?_, by simp, by simp⟩, γ, h.roster.congr rfl rfl rfl fun b _ => setSeat_connected (by rfl) b,
      ⟨h.mail.master, fun b hb => ?_, fun m hm => ?_, h.mail.told_le, h.mail.told_zero, h.mail.potato⟩,
      h.log.snoc not_chosen_player (by simp)⟩
    · rintro b l - hb hr
      obtain rfl : line = l := by simpa using hb
      rw [hline] at hr
      exact absurd hr (by decide)
    · rintro t ⟨hw, -⟩
      exact absurd hw (by simp)
    · have hba : b ≠ γ.ring i := fun heq => hb (mem_registered.mpr ⟨i, hi, heq.symm⟩)
      rw [setSeat_seat_of_ne g hba]
      exact h.mail.idle b hb
    · by_cases hmi : m = i
      · subst hmi
        unfold Served
        rw [setSeat_seat_self, todo_setSeat_self, if_pos rfl]
        exact ⟨hc, (List.append_eq_nil_iff.mp htail).2⟩
      · have hne : γ.ring m ≠ γ.ring i := fun heq => hmi (h.roster.ring_inj hm hi heq)
        refine (h.mail.served m hm).step (x := []) (setSeat_seat_of_ne g hne _) rfl ?_ ?_ fun hc => ⟨hc, rfl⟩
        · rw [List.append_nil]
          exact todo_setSeat_of_ne g hne _
        · rw [List.append_nil]
          rfl

/-- The walk goes on to a neighbour. -/
theorem Walk.hop {c : Config} {first n m : ℕ} {hs : List ℕ} (h : Walk c first (hs ++ [n]))
    (hm : Neighbor c n m) : Walk c first (hs ++ [n] ++ [m]) := by
  refine ⟨?_, ?_, fun x hx => ?_⟩
  · rw [List.head?_append_of_ne_nil _ (by simp)]
    exact h.head
  · apply h.chain.append (List.isChain_singleton m)
    intro x hx y hy
    obtain rfl : n = x := by simpa using hx
    obtain rfl : m = y := by simpa using hy
    exact hm
  · rcases List.mem_append.mp hx with hx | hx
    · exact h.lt x hx
    · obtain rfl := List.mem_singleton.mp hx
      rcases hm with rfl | rfl
      · exact leftOf_lt n
      · exact rightOf_lt n

theorem linesOf_routeText {hops : ℕ} {hs : List ℕ} (h : (routeText hops hs).length + 1 < maxRecvSize) :
    linesOf (routeText hops hs) = [routeText hops hs] := by
  rw [linesOf, messageLines_routeText h]
  rfl

/-- The potato moves: the log keeps what it says. -/
theorem Log.move {k : ℕ} {w : Whereabouts} (h : Log T evs k γ) (hold : γ.potato ≠ .kept)
    (hnew : w ≠ .kept) (hover : ∀ hs, w ≠ .over hs) (hopen : ∀ hs, γ.potato ≠ .over hs) :
    Log T evs k { γ with potato := w } := by
  refine ⟨h.informed, fun _ => h.chosen hold, fun e he n hn => ⟨hnew, (h.first e he n hn).2⟩, fun hs ho => ?_,
    fun e he a ha => ?_⟩
  · exact absurd ho (hover hs)
  · obtain ⟨hs, ho⟩ := h.closed e he a ha
    exact absurd ho (hopen hs)

theorem routeText_ne_closeText (hops : ℕ) (hs : List ℕ) : routeText hops hs ≠ closeText := by
  intro heq
  have h : beginsWith (routeText hops hs) routePrefix = true := rfl
  rw [heq] at h
  exact absurd h (by decide)

/-- A potato in the hand of a player that is told its neighbours may be passed on. -/
theorem eventOk_pass (h : Inv T evs g γ) {i n : ℕ} {hs hs' : List ℕ} {line : Text} {d : Addr}
    (hi : i < g.master.playersConnected) (hheld : γ.potato = .held i hs) (htold : γ.told i = 3) :
    EventOk T evs ⟨.player (γ.ring i), n, some line, some (d, routeText T.hops hs')⟩ := by
  have hlog : ∀ l ∈ infoLines T.toConfig γ.ring i, Handled evs (γ.ring i) l := by
    intro l hl
    refine h.log.informed i hi l ?_
    rw [htold]
    exact hl
  refine ⟨?_, fun t ht => absurd ht.1 (by simp), fun a ha => ?_, fun a t ha ht e' he' b hb => ?_⟩
  · intro a l hwho _ _ p hp
    obtain rfl : γ.ring i = a := by simpa using hwho
    simp only [List.mem_cons, List.not_mem_nil, or_false] at hp
    rcases hp with rfl | rfl | rfl
    · exact ⟨_, hlog _ List.mem_cons_self, rfl⟩
    · exact ⟨_, hlog _ (List.mem_cons_of_mem _ List.mem_cons_self), rfl⟩
    · exact ⟨_, hlog _ (List.mem_cons_of_mem _ (List.mem_cons_of_mem _ List.mem_cons_self)), rfl⟩
  · obtain ⟨-, heq⟩ := Prod.mk.inj (Option.some.inj ha)
    exact absurd heq (routeText_ne_closeText _ _)
  · obtain ⟨hs'', ho⟩ := h.log.closed e' he' b hb
    rw [hheld] at ho
    exact absurd ho (by simp)

/-- The potato leaves player `i` for where the new ghost has it. -/
theorem served_pass (h : Inv T evs g γ) {i : ℕ} {hs : List ℕ} {rest : List Text} {d : Addr} {t : Text}
    {p : Host} (hi : i < g.master.playersConnected) (hx : (g.seat (γ.ring i)).exited = false)
    (hheld : γ.potato = .held i hs) (htold : γ.told i = 3) (hpc : g.master.pc = .awaitRoute)
    (htail : rest ++ (g.inbox (γ.ring i)).flatMap (fun e => linesOf e.text) = [])
    (hring : γ'.ring = γ.ring) (htold' : γ'.told = γ.told)
    (hlines : ∀ m < g.master.playersConnected,
      (if γ.ring m = d then linesOf t else []) = potatoLines T.toConfig γ' m) :
    ∀ m < g.master.playersConnected, Served T ((g.setSeat (γ.ring i)
      { g.seat (γ.ring i) with player := known T.toConfig γ.ring i 3, pending := rest }).deliver p d t) γ' m := by
  intro m hm
  by_cases hmi : m = i
  · subst hmi
    have hexp : expected T.toConfig γ' g.master.pc m = potatoLines T.toConfig γ' m := by
      rw [expected, htold', htold, hpc, List.drop_of_length_le (by simp [infoLines])]
      simp [infoSent, closeSent]
    unfold Served
    rw [hring, deliver_seat, setSeat_seat_self, todo_deliver, todo_setSeat_self, htail, if_neg (by simp [hx]),
      hlines m hm, deliver_master, setSeat_master, hexp, htold', htold]
    exact ⟨rfl, rfl⟩
  · have hne : γ.ring m ≠ γ.ring i := fun heq => hmi (h.roster.ring_inj hm hi heq)
    have hnone : potatoLines T.toConfig γ m = [] := by
      simp [potatoLines, hheld, Ne.symm hmi]
    refine (h.mail.served m hm).step (x := potatoLines T.toConfig γ' m) ?_ ?_ ?_ ?_ ?_
    · rw [hring, deliver_seat, setSeat_seat_of_ne g hne]
    · rw [hring, htold']
    · rw [hring, todo_deliver, todo_setSeat_of_ne g hne, hlines m hm]
    · show expected T.toConfig γ' g.master.pc m = _
      rw [expected, expected, hring, htold', hnone, hpc]
      simp [infoSent, closeSent]
    · intro hc
      rw [hpc] at hc
      exact absurd hc (by simp [closeSent])

/-- The potato is passed on. -/
theorem inv_pass (h : Inv T evs g γ) {a d : Addr} {n : ℕ} {line t : Text} {rest : List Text} {q : Player}
    (hx : (g.seat a).exited = false) (hp : (g.seat a).pending = line :: rest)
    (hl : handleLine T.masterInfo (n ≠ 0) (g.seat a).player line = some (q, .send d t)) :
    EventOk T evs ⟨.player a, n, some line, some (d, t)⟩ ∧
    ∃ γ', Inv T (evs ++ [⟨.player a, n, some line, some (d, t)⟩])
      ((g.setSeat a { g.seat a with player := q, pending := rest }).deliver a.host d t) γ' := by
  obtain ⟨i, hi, rfl⟩ := h.mail.player_of_pending hp
  have hcase := h.mail.line_cases hi hx hp hl
  generalize htail : rest ++ (g.inbox (γ.ring i)).flatMap (fun e => linesOf e.text) = tail at hcase
  have hpot := h.mail.potato
  have hsilent : ∀ (x : Addr) (l : List ℕ), ∀ b, (some (x, routeText T.hops l) : Option (Addr × Text)) ≠
      some (b, closeText) := fun x l b hb =>
    routeText_ne_closeText _ _ (Prod.mk.inj (Option.some.inj hb)).2
  have hmem : ∀ b ∉ registered γ.ring g.master.playersConnected, b ≠ γ.ring i := fun b hb heq =>
    hb (mem_registered.mpr ⟨i, hi, heq.symm⟩)
  cases hcase with
  | @last hs hheld htold hline hlast =>
    have hfit := hpot.fits hheld
    unfold PotatoOk at hpot
    rw [hheld] at hpot
    obtain ⟨hpc, hlt, hwalk⟩ := hpot
    refine ⟨eventOk_pass h hi hheld htold, { γ with potato := .back (γ.ring i).host (hs ++ [i]) },
      h.roster.congr rfl rfl rfl fun b _ => setSeat_connected (by rfl) b,
      ⟨?_, fun b hb => ?_, fun m hm => ?_, h.mail.told_le, h.mail.told_zero, ?_⟩,
      (h.log.snoc not_chosen_player fun b hb => absurd hb (hsilent _ _ b)).move (by simp [hheld]) (by simp) (by simp)
        (by simp [hheld])⟩
    · have hbefore : backMail T.toConfig γ = [] := by simp [backMail, hheld]
      rw [deliver_inbox, if_pos rfl, setSeat_inbox, h.mail.master, hbefore, List.append_nil]
      rfl
    · rw [deliver_seat, setSeat_seat_of_ne g (hmem b hb), deliver_inbox]
      refine ⟨(h.mail.idle b hb).1, fun hbm => ?_, (h.mail.idle b hb).2.2⟩
      rw [if_neg hbm, setSeat_inbox]
      exact (h.mail.idle b hb).2.1 hbm
    · refine served_pass h hi hx hheld htold hpc htail (by rfl) (by rfl) (fun m hm => ?_) m hm
      rw [if_neg (h.roster.ring_ne hm)]
      rfl
    · exact ⟨hpc, by simpa using hlast, hwalk⟩
  | @hop hs j hheld htold hline hmore hj =>
    have hfit := hpot.fits hheld
    unfold PotatoOk at hpot
    rw [hheld] at hpot
    obtain ⟨hpc, hlt, hwalk⟩ := hpot
    have hfull : g.master.playersConnected = T.numPlayers := h.roster.filled (by simp [hpc])
    have hnext := hwalk.hop hj
    have hjlt : j < g.master.playersConnected := by
      rw [hfull]
      exact hnext.lt j (by simp)
    refine ⟨eventOk_pass h hi hheld htold, { γ with potato := .held j (hs ++ [i]) },
      h.roster.congr rfl rfl rfl fun b _ => setSeat_connected (by rfl) b,
      ⟨?_, fun b hb => ?_, fun m hm => ?_, h.mail.told_le, h.mail.told_zero, ?_⟩,
      (h.log.snoc not_chosen_player fun b hb => absurd hb (hsilent _ _ b)).move (by simp [hheld]) (by simp) (by simp)
        (by simp [hheld])⟩
    · have hbefore : backMail T.toConfig γ = [] := by simp [backMail, hheld]
      rw [deliver_inbox, if_neg (h.roster.ring_ne hjlt).symm, setSeat_inbox, h.mail.master, hbefore]
      rfl
    · have hbj : b ≠ γ.ring j := fun heq => hb (mem_registered.mpr ⟨j, hjlt, heq.symm⟩)
      rw [deliver_seat, setSeat_seat_of_ne g (hmem b hb), deliver_inbox, if_neg hbj]
      exact h.mail.idle b hb
    · refine served_pass h hi hx hheld htold hpc htail (by rfl) (by rfl) (fun m hm => ?_) m hm
      rw [linesOf_routeText hfit]
      by_cases hmj : m = j
      · subst hmj
        simp [potatoLines]
      · have hne : γ.ring m ≠ γ.ring j := fun heq => hmj (h.roster.ring_inj hm hjlt heq)
        simp [potatoLines, hne, Ne.symm hmj]
    · exact ⟨hpc, by simpa using hmore, hnext⟩

/-- Before the potato is sent the master has it. -/
theorem PotatoOk.kept {c : Config} {pc : Pc} (h : PotatoOk c γ pc)
    (hpc : pc = .accepting ∨ (∃ i, pc = .sendInfo i) ∨ pc = .sendPotato) : γ.potato = .kept := by
  unfold PotatoOk at h
  split at h
  · assumption
  · rcases hpc with rfl | ⟨i, rfl⟩ | rfl <;> exact absurd h.1 (by simp)
  · rcases hpc with rfl | ⟨i, rfl⟩ | rfl <;> exact absurd h.1 (by simp)
  · rcases hpc with rfl | ⟨i, rfl⟩ | rfl <;> exact absurd h.1 (by simp)

/-- While the players are told to close, the potato is back. -/
theorem PotatoOk.over {c : Config} {pc : Pc} {i : ℕ} (h : PotatoOk c γ pc) (hpc : pc = .closing i) :
    ∃ hs, γ.potato = .over hs ∧ hs.length = c.hops ∧ Walk c γ.first hs := by
  unfold PotatoOk at h
  subst hpc
  split at h
  · rcases h with hp | ⟨j, hp⟩ | hp <;> cases hp
  · cases h.1
  · cases h.1
  · exact ⟨_, by assumption, h.2⟩

theorem expected_kept {c : Config} {pc : Pc} {n : ℕ} (hpot : γ.potato = .kept) (hi : infoSent pc n = false) :
    expected c γ pc n = [] := by
  have hc : closeSent pc n = false := by
    cases pc <;> simp_all [infoSent, closeSent]
  simp [expected, potatoLines, hpot, hi, hc]

theorem Roster.accepting_of_not_connected (h : Roster T g γ) {a : Addr} (ha : a ∈ T.seats)
    (hc : (g.seat a).connected = false) : g.master.pc = .accepting := by
  by_contra hpc
  rw [h.all_connected hpc ha] at hc
  exact absurd hc (by simp)

/-- A player registers with the master. -/
theorem inv_connect (h : Inv T evs g γ) {a : Addr} {n : ℕ} (ha : a ∈ T.seats) (hc : (g.seat a).connected = false) :
    EventOk T evs ⟨.player a, n, none, some (T.masterInfo, connectText a.port)⟩ ∧
    ∃ γ', Inv T (evs ++ [⟨.player a, n, none, some (T.masterInfo, connectText a.port)⟩])
      ((g.setSeat a { g.seat a with connected := true }).deliver a.host T.masterInfo (connectText a.port)) γ' := by
  have hpc := h.roster.accepting_of_not_connected ha hc
  have hkept := h.mail.potato.kept (Or.inl hpc)
  have hnew : a ∉ registered γ.ring g.master.playersConnected ++ γ.queue := fun hm => by
    rw [(h.roster.connected a ha).mpr hm] at hc
    exact absurd hc (by simp)
  have hnot : connectText a.port ≠ closeText := by
    intro heq
    have h1 : beginsWith (connectText a.port) connectPrefix = true := rfl
    rw [heq] at h1
    exact absurd h1 (by decide)
  have hseat : ∀ b, b ≠ a → (g.setSeat a { g.seat a with connected := true }).seat b = g.seat b :=
    fun b hb => setSeat_seat_of_ne g hb _
  refine ⟨⟨by simp, fun t ht => absurd ht.1 (by simp), fun b hb => ?_, fun b t hb ht => ?_⟩,
    { γ with queue := γ.queue ++ [a] }, ⟨h.roster.players, ?_, ?_, ?_, h.roster.filling, h.roster.filled,
      h.roster.sending⟩, ⟨?_, fun b hb => ?_, fun m hm => ?_, h.mail.told_le, h.mail.told_zero, h.mail.potato⟩,
      ?_⟩
  · exact absurd (Prod.mk.inj (Option.some.inj hb)).2 hnot
  · obtain ⟨-, rfl⟩ := Prod.mk.inj (Option.some.inj hb)
    exact absurd ht Bool.false_ne_true
  · show (registered γ.ring g.master.playersConnected ++ (γ.queue ++ [a])).Nodup
    rw [← List.append_assoc]
    exact List.nodup_append.mpr ⟨h.roster.nodup, by simp, fun x hx y hy heq => by
      obtain rfl := List.mem_singleton.mp hy
      exact hnew (heq ▸ hx)⟩
  · intro b hb
    have hb' : b ∈ registered γ.ring g.master.playersConnected ++ (γ.queue ++ [a]) := hb
    rw [← List.append_assoc] at hb'
    rcases List.mem_append.mp hb' with hb' | hb'
    · exact h.roster.seats b hb'
    · exact List.mem_singleton.mp hb' ▸ ha
  · intro b hb
    show _ ↔ b ∈ registered γ.ring g.master.playersConnected ++ (γ.queue ++ [a])
    rw [← List.append_assoc, List.mem_append, List.mem_singleton, deliver_seat]
    by_cases hba : b = a
    · subst hba
      simp
    · rw [hseat b hba, h.roster.connected b hb]
      simp [hba]
  · have hback : backMail T.toConfig γ = [] := by simp [backMail, hkept]
    rw [deliver_inbox, if_pos rfl, setSeat_inbox, h.mail.master, hback]
    show _ = (γ.queue ++ [a]).map _ ++ backMail T.toConfig γ
    rw [hback]
    simp
  · obtain ⟨h1, h2, h3, h4⟩ := h.mail.idle b hb
    rw [deliver_seat, deliver_inbox]
    refine ⟨?_, fun hbm => ?_, ?_, ?_⟩
    · by_cases hba : b = a
      · subst hba; simpa using h1
      · rw [hseat b hba]; exact h1
    · rw [if_neg hbm, setSeat_inbox]
      exact h2 hbm
    · by_cases hba : b = a
      · subst hba; simpa using h3
      · rw [hseat b hba]; exact h3
    · by_cases hba : b = a
      · subst hba; simpa using h4
      · rw [hseat b hba]; exact h4
  · have hma : γ.ring m ≠ a := fun heq =>
      hnew (List.mem_append_left _ (mem_registered.mpr ⟨m, hm, heq⟩))
    refine (h.mail.served m hm).step (x := []) (hseat _ hma) rfl ?_ ?_ fun hc => ⟨hc, rfl⟩
    · rw [todo_deliver, if_neg (h.roster.ring_ne hm)]
      exact congrArg (· ++ []) (todo_setSeat_of_ne g hma _)
    · rw [List.append_nil]
      rfl
  · have hlog := h.log.snoc (e := ⟨.player a, n, none, some (T.masterInfo, connectText a.port)⟩) not_chosen_player
      fun b hb => absurd (Prod.mk.inj (Option.some.inj hb)).2 hnot
    exact ⟨hlog.informed, hlog.chosen, hlog.first, hlog.returned, hlog.closed⟩

end PlayerSteps

/-! ### The steps of the master -/

section MasterSteps

variable {T : Table} {evs : List Event} {g : Game} {γ : Ghost}

theorem registered_snoc {ring : ℕ → Addr} (k : ℕ) (a : Addr) :
    registered (Function.update ring k a) (k + 1) = registered ring k ++ [a] := by
  rw [registered, List.range_succ, List.map_append, registered]
  congr 1
  · apply List.map_congr_left
    intro n hn
    rw [Function.update_of_ne (List.mem_range.mp hn).ne]
  · simp

/-- The end of the registration is the start of the infos. -/
theorem afterReturn_register {c : Config} {m : Master} (a : Addr) (hpc : m.pc = .accepting) :
    afterReturn c (m.register a) = if m.playersConnected + 1 < c.numPlayers then .accepting else .sendInfo 0 := by
  have h : (m.register a).pc = .accepting := hpc
  rw [afterReturn, h]
  show (if m.playersConnected + 1 < c.numPlayers then Pc.accepting else infoPc c 0) = _
  rw [infoPc_zero]

/-- The ghost, with player `k` registered. -/
def Ghost.register (γ : Ghost) (k : ℕ) (a : Addr) (q : List Addr) : Ghost :=
  { γ with ring := Function.update γ.ring k a, queue := q }

/-- The game, with a player registered and the messages `box` left to the master. -/
def Game.register (T : Table) (g : Game) (a : Addr) (box : List Envelope) : Game :=
  { g with
    master := { g.master.register a with pc := afterReturn T.toConfig (g.master.register a) }
    inbox := Function.update g.inbox T.masterInfo box }

section Register

variable {a : Addr} {q : List Addr}

theorem pc_register (hpc : g.master.pc = .accepting) (a : Addr) (box : List Envelope) :
    (g.register T a box).master.pc =
      if g.master.playersConnected + 1 < T.numPlayers then .accepting else .sendInfo 0 :=
  afterReturn_register a hpc

theorem registered_register (γ : Ghost) (k : ℕ) (a : Addr) (q : List Addr) :
    registered (γ.register k a q).ring (k + 1) ++ q = registered γ.ring k ++ a :: q := by
  show registered (Function.update γ.ring k a) (k + 1) ++ q = _
  rw [registered_snoc, List.append_assoc]
  rfl

theorem todo_register {b : Addr} (hb : b ≠ T.masterInfo) (a : Addr) (box : List Envelope) :
    todo (g.register T a box) b = todo g b := by
  simp only [Game.register, todo, Function.update_of_ne hb]

theorem Roster.register (h : Roster T g γ) (hpc : g.master.pc = .accepting) (hq : γ.queue = a :: q)
    (box : List Envelope) : Roster T (g.register T a box) (γ.register g.master.playersConnected a q) := by
  have hlt := h.filling hpc
  have hnodup := h.nodup
  have hseats := h.seats
  have hconn := h.connected
  rw [hq, ← registered_register] at hnodup hseats hconn
  constructor
  · intro i hi
    show Function.update g.master.players g.master.playersConnected (some a) i =
      some (Function.update γ.ring g.master.playersConnected a i)
    by_cases hik : i = g.master.playersConnected
    · rw [hik, Function.update_self, Function.update_self]
    · rw [Function.update_of_ne hik, Function.update_of_ne hik]
      exact h.players i (Nat.lt_of_le_of_ne (Nat.le_of_lt_succ hi) hik)
  · exact hnodup
  · exact hseats
  · exact hconn
  · intro hacc
    rw [pc_register hpc] at hacc
    show g.master.playersConnected + 1 < T.numPlayers
    by_contra hge
    rw [if_neg hge] at hacc
    cases hacc
  · intro hacc
    rw [pc_register hpc] at hacc
    have hge : ¬ g.master.playersConnected + 1 < T.numPlayers := fun hlt' => hacc (if_pos hlt')
    show g.master.playersConnected + 1 = T.numPlayers
    omega
  · intro i hi
    have hpos := T.players_pos
    rw [pc_register hpc] at hi
    split_ifs at hi <;> simp at hi
    omega

/-- The player that is registered has nothing yet; for the others nothing changes. -/
theorem Served.register (h : Inv T evs g γ) (hpc : g.master.pc = .accepting) (hq : γ.queue = a :: q)
    (box : List Envelope) {i : ℕ} (hi : i < g.master.playersConnected + 1) :
    Served T (g.register T a box) (γ.register g.master.playersConnected a q) i := by
  have hkept : (γ.register g.master.playersConnected a q).potato = .kept := h.mail.potato.kept (Or.inl hpc)
  have htold : γ.told i = 0 := h.mail.told_zero i (by rw [hpc]; rfl)
  have hbefore : expected T.toConfig γ g.master.pc i = [] := expected_kept hkept (by rw [hpc]; rfl)
  have hnone : expected T.toConfig (γ.register g.master.playersConnected a q) (g.register T a box).master.pc i =
      [] := by
    apply expected_kept hkept
    rw [pc_register hpc]
    split_ifs <;> simp [infoSent]
  by_cases hik : i = g.master.playersConnected
  · have hnodup := h.roster.nodup
    have hseat := h.roster.seats a (by simp [hq])
    rw [hq] at hnodup
    have hnew : a ∉ registered γ.ring g.master.playersConnected := fun hm =>
      (List.nodup_append.mp hnodup).2.2 a hm a List.mem_cons_self rfl
    have hne : a ≠ T.masterInfo := fun heq => T.master_not_mem (heq ▸ hseat)
    have hring : (γ.register g.master.playersConnected a q).ring i = a := by
      rw [hik]
      exact Function.update_self _ _ _
    obtain ⟨h1, h2, h3, h4⟩ := h.mail.idle a hnew
    have hexited : ¬ ((g.register T a box).seat a).exited = true := by
      show ¬ (g.seat a).exited = true
      rw [h3]
      exact Bool.false_ne_true
    unfold Served
    rw [hring, if_neg hexited, hnone, todo_register hne]
    refine ⟨?_, ?_⟩
    · simp [todo, h1, h2 hne]
    · show (g.seat a).player = known _ _ i (γ.told i)
      rw [h4, htold]
      rfl
  · have hik' : i < g.master.playersConnected := by omega
    have hring : (γ.register g.master.playersConnected a q).ring i = γ.ring i := Function.update_of_ne hik _ _
    refine (h.mail.served i hik').step (x := []) ?_ ?_ ?_ ?_ ?_
    · exact congrArg g.seat hring
    · show known _ _ _ (γ.told i) = known _ _ _ (γ.told i)
      rw [htold]
      rfl
    · rw [List.append_nil, hring]
      exact todo_register (h.roster.ring_ne hik') a box
    · rw [List.append_nil]
      exact hnone.trans hbefore.symm
    · rw [hpc]
      exact fun hc => absurd hc (by simp [closeSent])

theorem Mail.register (h : Inv T evs g γ) (hpc : g.master.pc = .accepting) (hq : γ.queue = a :: q) :
    Mail T (g.register T a (q.map fun a => ⟨a.host, connectText a.port⟩))
      (γ.register g.master.playersConnected a q) := by
  have hkept := h.mail.potato.kept (Or.inl hpc)
  constructor
  · show Function.update g.inbox T.masterInfo _ T.masterInfo = _ ++ backMail T.toConfig γ
    rw [Function.update_self, backMail, hkept, List.append_nil]
    rfl
  · intro b hb
    have hb' : b ∉ registered γ.ring g.master.playersConnected := fun hm => hb (by
      show b ∈ registered (Function.update γ.ring g.master.playersConnected a) (g.master.playersConnected + 1)
      rw [registered_snoc]
      exact List.mem_append_left _ hm)
    obtain ⟨h1, h2, h3⟩ := h.mail.idle b hb'
    refine ⟨h1, fun hbm => ?_, h3⟩
    show Function.update g.inbox T.masterInfo _ b = []
    rw [Function.update_of_ne hbm]
    exact h2 hbm
  · intro i hi
    exact Served.register h hpc hq _ hi
  · exact h.mail.told_le
  · intro i _
    exact h.mail.told_zero i (by rw [hpc]; rfl)
  · unfold PotatoOk
    rw [pc_register hpc, show (γ.register g.master.playersConnected a q).potato = .kept from hkept]
    split_ifs <;> simp

end Register

/-- The master registers a player. -/
theorem inv_register (h : Inv T evs g γ) {n : ℕ} {e : Envelope} {rest : List Envelope} {m : Master}
    (hpc : g.master.pc = .accepting) (hin : g.inbox T.masterInfo = e :: rest)
    (hr : receive T.toConfig g.master e = some m) :
    EventOk T evs ⟨.master, n, some e.text, none⟩ ∧ ∃ γ', Inv T (evs ++ [⟨.master, n, some e.text, none⟩])
      { g with master := m, inbox := Function.update g.inbox T.masterInfo rest } γ' := by
  have hkept := h.mail.potato.kept (Or.inl hpc)
  have hbox := h.mail.master
  rw [hin, show backMail T.toConfig γ = [] by simp [backMail, hkept], List.append_nil] at hbox
  -- the message is that of the first player in the queue
  obtain ⟨a, q, hq, rfl, rfl⟩ := List.map_eq_cons_iff.mp hbox.symm
  rw [receive_connect] at hr
  obtain rfl := Option.some.inj hr
  refine ⟨⟨by simp, fun t ht => ?_, by simp, by simp⟩, γ.register g.master.playersConnected a q,
    h.roster.register hpc hq _, Mail.register h hpc hq, ?_⟩
  · obtain ⟨-, ht, hb⟩ := ht
    obtain rfl := Option.some.inj ht
    exact absurd hb Bool.false_ne_true
  · have hlog := h.log.snoc (e := ⟨.master, n, some (connectText a.port), none⟩)
      (fun i hi => by obtain ⟨-, -, b, hb⟩ := hi; exact absurd hb (by simp)) (by simp)
    refine ⟨fun i _ l hl => ?_, hlog.chosen, hlog.first, hlog.returned, hlog.closed⟩
    have htold : γ.told i = 0 := h.mail.told_zero i (by rw [hpc]; rfl)
    have hl' : l ∈ (infoLines T.toConfig (Function.update γ.ring g.master.playersConnected a) i).take (γ.told i) := hl
    rw [htold] at hl'
    exact absurd hl' (by simp)

/-- The potato is back. -/
theorem inv_return (h : Inv T evs g γ) {n : ℕ} {e : Envelope} {rest : List Envelope} {m : Master}
    (hpc : g.master.pc = .awaitRoute) (hin : g.inbox T.masterInfo = e :: rest)
    (hr : receive T.toConfig g.master e = some m) :
    EventOk T evs ⟨.master, n, some e.text, none⟩ ∧ ∃ γ', Inv T (evs ++ [⟨.master, n, some e.text, none⟩])
      { g with master := m, inbox := Function.update g.inbox T.masterInfo rest } γ' := by
  have hnacc : g.master.pc ≠ .accepting := by simp [hpc]
  have hfull := h.roster.filled hnacc
  have hbox := h.mail.master
  rw [hin, (h.roster.complete hnacc).1, List.map_nil, List.nil_append] at hbox
  obtain ⟨p, hs, hback⟩ : ∃ p hs, γ.potato = .back p hs := by
    unfold backMail at hbox
    split at hbox
    · exact ⟨_, _, by assumption⟩
    · exact absurd hbox (by simp)
  rw [backMail, hback] at hbox
  obtain ⟨rfl, rfl⟩ := List.cons.inj hbox
  have hpot := h.mail.potato
  unfold PotatoOk at hpot
  rw [hback] at hpot
  obtain ⟨-, hlen, hwalk⟩ := hpot
  rw [receive_route g.master p hlen.le fun x hx => lt_of_lt_of_le (hwalk.lt x hx) T.players_le] at hr
  obtain rfl := Option.some.inj hr
  have hret : afterReturn T.toConfig g.master = .closing 0 := by
    rw [afterReturn, hpc]
    exact if_pos (hfull ▸ T.players_pos)
  have hret' : Returned ⟨.master, n, some (routeText T.hops hs), none⟩ (routeText T.hops hs) := ⟨rfl, rfl, rfl⟩
  have hlog := h.log.snoc (e := ⟨.master, n, some (routeText T.hops hs), none⟩)
    (fun i hi => by obtain ⟨-, -, b, hb⟩ := hi; exact absurd hb (by simp)) (by simp)
  refine ⟨⟨by simp, fun t ht => ?_, by simp, by simp⟩, { γ with potato := .over hs },
    ⟨h.roster.players, h.roster.nodup, h.roster.seats, h.roster.connected, ?_, fun _ => hfull, ?_⟩,
    ⟨?_, ?_, ?_, h.mail.told_le, fun i hi => ?_, ?_⟩, ?_⟩
  · obtain ⟨-, ht, -⟩ := ht
    obtain rfl := Option.some.inj ht
    refine ⟨γ.first, hs, rfl, hlen, hwalk.head, hwalk.chain, h.log.chosen (by simp [hback]), ?_⟩
    exact fun e' he' i hi => (h.log.first e' he' i hi).2
  · exact fun hacc => absurd (hret.symm.trans hacc) (by simp)
  · rintro i (hi | hi)
    · exact absurd (hret.symm.trans hi) (by simp)
    · obtain rfl : 0 = i := by simpa using hret.symm.trans hi
      exact T.players_pos
  · show Function.update g.inbox T.masterInfo [] T.masterInfo = _
    rw [Function.update_self, (h.roster.complete hnacc).1]
    rfl
  · intro b hb
    obtain ⟨h1, h2, h3⟩ := h.mail.idle b hb
    refine ⟨h1, fun hbm => ?_, h3⟩
    show Function.update g.inbox T.masterInfo _ b = []
    rw [Function.update_of_ne hbm]
    exact h2 hbm
  · intro i hi
    refine (h.mail.served i hi).step (x := []) rfl rfl ?_ ?_ ?_
    · simp only [todo, Function.update_of_ne (h.roster.ring_ne hi), List.append_nil]
    · show expected T.toConfig _ (afterReturn T.toConfig g.master) i = _
      rw [hret, hpc]
      simp [expected, potatoLines, hback, infoSent, closeSent]
    · rw [hpc]
      exact fun hc => absurd hc (by simp [closeSent])
  · have hi' : infoSent (afterReturn T.toConfig g.master) i = false := hi
    rw [hret] at hi'
    exact absurd hi' (by simp [infoSent])
  · exact ⟨Or.inl ⟨0, hret⟩, hlen, hwalk⟩
  · refine ⟨hlog.informed, fun _ => hlog.chosen (by simp [hback]), fun e' he' i hi => ?_, fun hs' _ => ?_,
      fun e' he' a ha => ⟨hs, rfl⟩⟩
    · exact ⟨by simp, (hlog.first e' he' i hi).2⟩
    · exact ⟨_, List.mem_append_right _ List.mem_cons_self, _, hret'⟩

/-- A message of the master to player `i`, when the ghost and the new place in
`main` account for its lines. -/
theorem served_send (h : Inv T evs g γ) {γ' : Ghost} {i : ℕ} {pc : Pc} {t : Text} (hi : i < g.master.playersConnected)
    (hring : γ'.ring = γ.ring) (htold : γ'.told = γ.told)
    (hself : expected T.toConfig γ' pc i = expected T.toConfig γ g.master.pc i ++ linesOf t)
    (hother : ∀ m < g.master.playersConnected, m ≠ i →
      expected T.toConfig γ' pc m = expected T.toConfig γ g.master.pc m)
    (hclose : ∀ m, closeSent g.master.pc m = true → closeSent pc m = true ∧ m ≠ i) :
    ∀ m < g.master.playersConnected,
      Served T (Game.deliver { g with master := { g.master with pc := pc } } T.masterInfo.host (γ.ring i) t) γ' m := by
  intro m hm
  have htodo : todo { g with master := { g.master with pc := pc } } (γ.ring m) = todo g (γ.ring m) := rfl
  by_cases hmi : m = i
  · subst hmi
    refine (h.mail.served m hm).step (x := linesOf t) ?_ ?_ ?_ hself fun hc => absurd rfl (hclose m hc).2
    · rw [hring]; rfl
    · rw [hring, htold]
    · rw [hring, todo_deliver, if_pos rfl, htodo]
  · have hne : γ.ring m ≠ γ.ring i := fun heq => hmi (h.roster.ring_inj hm hi heq)
    refine (h.mail.served m hm).step (x := []) ?_ ?_ ?_ ?_ fun hc => ⟨(hclose m hc).1, rfl⟩
    · rw [hring]; rfl
    · rw [hring, htold]
    · rw [hring, todo_deliver, if_neg hne, htodo]
    · rw [List.append_nil]
      exact hother m hm hmi

/-- What a message of the master to player `i` leaves as it was. -/
theorem mail_send (h : Inv T evs g γ) {γ' : Ghost} {i : ℕ} {pc : Pc} {t : Text} (hi : i < g.master.playersConnected)
    (hring : γ'.ring = γ.ring) (hq : γ'.queue = γ.queue) (htold : γ'.told = γ.told)
    (hback : backMail T.toConfig γ' = backMail T.toConfig γ)
    (hself : expected T.toConfig γ' pc i = expected T.toConfig γ g.master.pc i ++ linesOf t)
    (hother : ∀ m < g.master.playersConnected, m ≠ i →
      expected T.toConfig γ' pc m = expected T.toConfig γ g.master.pc m)
    (hclose : ∀ m, closeSent g.master.pc m = true → closeSent pc m = true ∧ m ≠ i)
    (hinfo : ∀ m, infoSent pc m = false → infoSent g.master.pc m = false) (hpot : PotatoOk T.toConfig γ' pc) :
    Mail T (Game.deliver { g with master := { g.master with pc := pc } } T.masterInfo.host (γ.ring i) t) γ' := by
  refine ⟨?_, fun b hb => ?_, served_send h hi hring htold hself hother hclose, fun m => ?_, fun m hm => ?_, hpot⟩
  · rw [deliver_inbox, if_neg (h.roster.ring_ne hi).symm, hq, hback]
    exact h.mail.master
  · rw [hring] at hb
    have hbi : b ≠ γ.ring i := fun heq => hb (mem_registered.mpr ⟨i, hi, heq.symm⟩)
    rw [deliver_inbox, if_neg hbi]
    exact h.mail.idle b hb
  · rw [htold]
    exact h.mail.told_le m
  · rw [htold]
    exact h.mail.told_zero m (hinfo m hm)

theorem roster_send (h : Inv T evs g γ) {γ' : Ghost} {i : ℕ} {pc : Pc} {t : Text} (hring : γ'.ring = γ.ring)
    (hq : γ'.queue = γ.queue) (hold : g.master.pc ≠ .accepting) (hnew : pc ≠ .accepting)
    (hsending : ∀ j, pc = .sendInfo j ∨ pc = .closing j → j < T.numPlayers) :
    Roster T (Game.deliver { g with master := { g.master with pc := pc } } T.masterInfo.host (γ.ring i) t) γ' := by
  refine ⟨?_, ?_, ?_, ?_, fun hacc => absurd hacc hnew, fun _ => h.roster.filled hold, hsending⟩
  · rw [hring]; exact h.roster.players
  · rw [hring, hq]; exact h.roster.nodup
  · rw [hring, hq]; exact h.roster.seats
  · rw [hring, hq]; exact h.roster.connected

theorem linesOf_infoText {ring : ℕ → Addr} {i : ℕ} (hi : i < T.numPlayers) :
    linesOf (infoText i (leftOf T.toConfig i) (ring (leftOf T.toConfig i)) (rightOf T.toConfig i)
      (ring (rightOf T.toConfig i))) = infoLines T.toConfig ring i := by
  have hle := T.players_le
  have hl := leftOf_lt (c := T.toConfig) i
  have hr := rightOf_lt (c := T.toConfig) i
  rw [linesOf, messageLines_infoText (by omega) (by omega) (by omega)]
  rfl

/-- The loop that sends the infos goes on, or the potato is next. -/
theorem infoPc_succ {c : Config} {i : ℕ} (hh : 0 < c.hops) (hi : i < c.numPlayers) :
    infoPc c (i + 1) = .sendInfo (i + 1) ∧ i + 1 < c.numPlayers ∨
      infoPc c (i + 1) = .sendPotato ∧ i + 1 = c.numPlayers := by
  unfold infoPc
  split_ifs with h1
  · exact Or.inl ⟨rfl, h1⟩
  · exact Or.inr ⟨rfl, by omega⟩

theorem infoSent_infoPc {c : Config} {i n : ℕ} (hh : 0 < c.hops) (hi : i < c.numPlayers) (hn : n < c.numPlayers) :
    infoSent (infoPc c (i + 1)) n = decide (n < i + 1) := by
  rcases infoPc_succ hh hi with ⟨heq, -⟩ | ⟨heq, hN⟩
  · rw [heq]
    rfl
  · rw [heq]
    exact (decide_eq_true (by omega)).symm

/-- The loop that tells the players to close goes on, or the game is done. -/
theorem closePc_succ {m : Master} {i : ℕ} (hi : i < m.playersConnected) :
    closePc m (i + 1) = .closing (i + 1) ∧ i + 1 < m.playersConnected ∨
      closePc m (i + 1) = .done ∧ i + 1 = m.playersConnected := by
  unfold closePc
  split_ifs with h1
  · exact Or.inl ⟨rfl, h1⟩
  · exact Or.inr ⟨rfl, by omega⟩

theorem closeSent_closePc {m : Master} {i n : ℕ} (hi : i < m.playersConnected) (hn : n < m.playersConnected) :
    closeSent (closePc m (i + 1)) n = decide (n < i + 1) := by
  rcases closePc_succ hi with ⟨heq, -⟩ | ⟨heq, hN⟩
  · rw [heq]
    rfl
  · rw [heq]
    exact (decide_eq_true (by omega)).symm

/-- A player is told its neighbours. -/
theorem inv_sendInfo (hh : 0 < T.hops) (h : Inv T evs g γ) {n i : ℕ} {a la ra : Addr}
    (hpc : g.master.pc = .sendInfo i) (ha : g.master.players i = some a)
    (hla : g.master.players (leftOf T.toConfig i) = some la)
    (hra : g.master.players (rightOf T.toConfig i) = some ra) {t : Text}
    (ht : t = infoText i (leftOf T.toConfig i) la (rightOf T.toConfig i) ra) :
    EventOk T evs ⟨.master, n, none, some (a, t)⟩ ∧ ∃ γ', Inv T (evs ++ [⟨.master, n, none, some (a, t)⟩])
      (Game.deliver { g with master := { g.master with pc := infoPc T.toConfig (i + 1) } } T.masterInfo.host a t)
      γ' := by
  have hnacc : g.master.pc ≠ .accepting := by simp [hpc]
  have hfull := h.roster.filled hnacc
  have hi := h.roster.sending i (Or.inl hpc)
  have hkept := h.mail.potato.kept (Or.inr (Or.inl ⟨i, hpc⟩))
  obtain rfl := Option.some.inj ((h.roster.players i (hfull ▸ hi)).symm.trans ha)
  obtain rfl := Option.some.inj ((h.roster.players _ (hfull ▸ leftOf_lt i)).symm.trans hla)
  obtain rfl := Option.some.inj ((h.roster.players _ (hfull ▸ rightOf_lt i)).symm.trans hra)
  have hlines : linesOf t = infoLines T.toConfig γ.ring i := ht ▸ linesOf_infoText hi
  have hnc : t ≠ closeText := by
    intro heq
    have h1 : beginsWith t idPrefix = true := by rw [ht]; rfl
    rw [heq] at h1
    exact absurd h1 (by decide)
  have hnr : beginsWith t routePrefix = false := by
    rw [ht]
    rfl
  have hnext := infoPc_succ (c := T.toConfig) hh hi
  have hsent : ∀ m < T.numPlayers, infoSent (infoPc T.toConfig (i + 1)) m = decide (m < i + 1) := fun m hm =>
    infoSent_infoPc hh hi hm
  have hclose : ∀ m, closeSent (infoPc T.toConfig (i + 1)) m = false := by
    intro m
    rcases hnext with ⟨heq, -⟩ | ⟨heq, -⟩ <;> rw [heq] <;> rfl
  refine ⟨⟨by simp, fun _ hr => absurd hr.2.1 (by simp), fun b hb => ?_, fun b t' hb hr => ?_⟩, γ,
    roster_send h rfl rfl hnacc ?_ ?_, mail_send h (hfull ▸ hi) rfl rfl rfl rfl ?_ ?_ ?_ ?_ ?_, ?_⟩
  · exact absurd (Prod.mk.inj (Option.some.inj hb)).2 hnc
  · obtain ⟨-, rfl⟩ := Prod.mk.inj (Option.some.inj hb)
    rw [hnr] at hr
    exact absurd hr (by simp)
  · rcases hnext with ⟨heq, -⟩ | ⟨heq, -⟩ <;> simp [heq]
  · intro j hj
    rcases hnext with ⟨heq, hlt⟩ | ⟨heq, -⟩
    · rw [heq] at hj
      obtain rfl : i + 1 = j := by simpa using hj
      exact hlt
    · rw [heq] at hj
      exact absurd hj (by simp)
  · have htold : γ.told i = 0 := h.mail.told_zero i (by simp [hpc, infoSent])
    have hbefore : expected T.toConfig γ g.master.pc i = [] := expected_kept hkept (by simp [hpc, infoSent])
    rw [hbefore, hlines, expected, hsent i hi, hclose, htold]
    simp [potatoLines, hkept]
  · intro m hm hmi
    rw [hfull] at hm
    have hsame : decide (m < i + 1) = decide (m < i) := by
      simp only [decide_eq_decide]
      omega
    rw [expected, expected, hsent m hm, hclose, hsame, hpc]
    rfl
  · rw [hpc]
    exact fun m hc => absurd hc (by simp [closeSent])
  · intro m hm
    rw [hpc]
    rcases hnext with ⟨heq, -⟩ | ⟨heq, -⟩
    · rw [heq] at hm
      simp only [infoSent, decide_eq_false_iff_not] at hm ⊢
      omega
    · rw [heq] at hm
      exact absurd hm (by simp [infoSent])
  · unfold PotatoOk
    rw [hkept]
    rcases hnext with ⟨heq, -⟩ | ⟨heq, -⟩
    · exact Or.inr (Or.inl ⟨_, heq⟩)
    · exact Or.inr (Or.inr heq)
  · refine h.log.snoc (fun m hm => ?_) fun b hb => absurd (Prod.mk.inj (Option.some.inj hb)).2 hnc
    obtain ⟨-, -, b, hb⟩ := hm
    obtain ⟨-, rfl⟩ := Prod.mk.inj (Option.some.inj hb)
    exact absurd hnr (by simp [show beginsWith (potatoText T.hops) routePrefix = true from rfl])

/-- The potato is sent to the player chosen. -/
theorem inv_sendPotato (hh : 0 < T.hops) (h : Inv T evs g γ) {f : ℕ} {a : Addr} (hpc : g.master.pc = .sendPotato)
    (hf : f < T.numPlayers) (ha : g.master.players f = some a) :
    EventOk T evs ⟨.master, f, none, some (a, potatoText T.hops)⟩ ∧
    ∃ γ', Inv T (evs ++ [⟨.master, f, none, some (a, potatoText T.hops)⟩])
      (Game.deliver { g with master := { g.master with pc := .awaitRoute } } T.masterInfo.host a
        (potatoText T.hops)) γ' := by
  have hnacc : g.master.pc ≠ .accepting := by simp [hpc]
  have hfull := h.roster.filled hnacc
  have hkept := h.mail.potato.kept (Or.inr (Or.inr hpc))
  obtain rfl := Option.some.inj ((h.roster.players f (hfull ▸ hf)).symm.trans ha)
  have hlines : linesOf (potatoText T.hops) = [routeText T.hops []] := by
    rw [linesOf, messageLines_potatoText T.hops_le]
    rfl
  have hnc : potatoText T.hops ≠ closeText := by
    intro heq
    have h1 : beginsWith (potatoText T.hops) routePrefix = true := rfl
    rw [heq] at h1
    exact absurd h1 (by decide)
  have hopen : ∀ e ∈ evs, ∀ b, e.sent ≠ some (b, closeText) := by
    intro e he b hb
    obtain ⟨hs, ho⟩ := h.log.closed e he b hb
    rw [hkept] at ho
    exact absurd ho (by simp)
  have hchosen : Chosen T ⟨.master, f, none, some (γ.ring f, potatoText T.hops)⟩ f := ⟨rfl, rfl, _, rfl⟩
  refine ⟨⟨by simp, fun _ hr => absurd hr.2.1 (by simp), fun b hb => ?_, fun _ _ _ _ => hopen⟩,
    { γ with first := f, potato := .held f [] }, roster_send h rfl rfl hnacc (by simp) (by simp),
    mail_send h (hfull ▸ hf) rfl rfl rfl ?_ ?_ ?_ ?_ ?_ ?_, ?_⟩
  · exact absurd (Prod.mk.inj (Option.some.inj hb)).2 hnc
  · simp [backMail, hkept]
  · rw [hlines, hpc]
    simp [expected, potatoLines, hkept, infoSent, closeSent]
  · intro m hm hmf
    rw [hpc]
    simp [expected, potatoLines, hkept, infoSent, closeSent, Ne.symm hmf]
  · rw [hpc]
    exact fun m hc => absurd hc (by simp [closeSent])
  · exact fun m hm => absurd hm (by simp [infoSent])
  · exact ⟨rfl, hh, ⟨rfl, by simp, by simpa using hf⟩⟩
  · refine ⟨fun m hm l hl => ?_, fun _ => ⟨_, List.mem_append_right _ List.mem_cons_self, hchosen⟩,
      fun e he m hm => ⟨by simp, ?_⟩, fun hs ho => absurd ho (by simp), fun e he b hb => ?_⟩
    · obtain ⟨e, he, hh⟩ := h.log.informed m hm l hl
      exact ⟨e, List.mem_append_left _ he, hh⟩
    · rcases List.mem_append.mp he with he | he
      · exact absurd hkept (h.log.first e he m hm).1
      · obtain rfl := List.mem_singleton.mp he
        exact hm.2.1.symm
    · rcases List.mem_append.mp he with he | he
      · exact absurd hb (hopen e he b)
      · obtain rfl := List.mem_singleton.mp he
        exact absurd (Prod.mk.inj (Option.some.inj hb)).2 hnc

/-- A player is told to close. -/
theorem inv_sendClose (h : Inv T evs g γ) {n i : ℕ} {a : Addr} (hpc : g.master.pc = .closing i)
    (ha : g.master.players i = some a) :
    EventOk T evs ⟨.master, n, none, some (a, closeText)⟩ ∧
    ∃ γ', Inv T (evs ++ [⟨.master, n, none, some (a, closeText)⟩])
      (Game.deliver { g with master := { g.master with pc := closePc g.master (i + 1) } } T.masterInfo.host a
        closeText) γ' := by
  have hnacc : g.master.pc ≠ .accepting := by simp [hpc]
  have hfull := h.roster.filled hnacc
  have hi := h.roster.sending i (Or.inr hpc)
  obtain rfl := Option.some.inj ((h.roster.players i (hfull ▸ hi)).symm.trans ha)
  have hlines : linesOf closeText = [closeText] := by
    rw [linesOf, messageLines_closeText]
    rfl
  obtain ⟨hs, hover, hlen, hwalk⟩ := h.mail.potato.over hpc
  have hnext := closePc_succ (m := g.master) (hfull ▸ hi)
  rw [hfull] at hnext
  have hsent : ∀ m, infoSent (closePc g.master (i + 1)) m = true := by
    intro m
    rcases hnext with ⟨heq, -⟩ | ⟨heq, -⟩ <;> rw [heq] <;> rfl
  have hclose : ∀ m < T.numPlayers, closeSent (closePc g.master (i + 1)) m = decide (m < i + 1) := fun m hm =>
    closeSent_closePc (hfull ▸ hi) (hfull ▸ hm)
  refine ⟨⟨by simp, fun _ hr => absurd hr.2.1 (by simp), fun b hb => h.log.returned hs hover, fun b t hb hr => ?_⟩,
    γ, roster_send h rfl rfl hnacc ?_ ?_, mail_send h (hfull ▸ hi) rfl rfl rfl rfl ?_ ?_ ?_ ?_ ?_, ?_⟩
  · obtain ⟨-, rfl⟩ := Prod.mk.inj (Option.some.inj hb)
    exact absurd hr (by decide)
  · rcases hnext with ⟨heq, -⟩ | ⟨heq, -⟩ <;> simp [heq]
  · intro j hj
    rcases hnext with ⟨heq, hlt⟩ | ⟨heq, -⟩
    · rw [heq] at hj
      obtain rfl : i + 1 = j := by simpa using hj
      exact hlt
    · rw [heq] at hj
      exact absurd hj (by simp)
  · rw [expected, expected, hsent, hclose i hi, hlines, hpc]
    simp [infoSent, closeSent]
  · intro m hm hmi
    rw [hfull] at hm
    have hsame : decide (m < i + 1) = decide (m < i) := by
      simp only [decide_eq_decide]
      omega
    rw [expected, expected, hsent, hclose m hm, hsame, hpc]
    rfl
  · intro m hc
    rw [hpc] at hc
    have hlt : m < i := by simpa [closeSent] using hc
    refine ⟨?_, hlt.ne⟩
    rw [hclose m (by omega)]
    simp only [decide_eq_true_eq]
    omega
  · intro m hm
    rw [hsent] at hm
    exact absurd hm (by simp)
  · unfold PotatoOk
    rw [hover]
    refine ⟨?_, hlen, hwalk⟩
    rcases hnext with ⟨heq, -⟩ | ⟨heq, -⟩
    · exact Or.inl ⟨_, heq⟩
    · exact Or.inr heq
  · refine h.log.snoc (fun m hm => ?_) fun _ _ => ⟨hs, hover⟩
    obtain ⟨-, -, b, hb⟩ := hm
    have h1 : closeText = potatoText T.hops := (Prod.mk.inj (Option.some.inj hb)).2
    have h2 : beginsWith (potatoText T.hops) routePrefix = true := rfl
    rw [← h1] at h2
    exact absurd h2 (by decide)

/-- Every step keeps the invariant, and is one the game allows. -/
theorem inv_step {g' : Game} {e : Event} (hh : 0 < T.hops) (h : Inv T evs g γ) (hst : (game T).step g e g') :
    EventOk T evs e ∧ ∃ γ', Inv T (evs ++ [e]) g' γ' := by
  cases step_effect hst with
  | take hw hin hr =>
    rcases hw with hpc | hpc
    · exact inv_register h hpc hin hr
    · exact inv_return h hpc hin hr
  | send hs =>
    rcases sendNext_cases hs with ⟨i, la, ra, hpc, ha, hla, hra, rfl, ht⟩ | ⟨hpc, hf, ha, rfl, rfl⟩ |
      ⟨i, hpc, ha, rfl, rfl⟩
    · exact inv_sendInfo hh h hpc ha hla hra ht
    · exact inv_sendPotato hh h hpc hf ha
    · exact inv_sendClose h hpc ha
  | connect ha hc => exact inv_connect h ha hc
  | accept ha hp hin hl =>
    exact ⟨⟨by simp, by simp [Returned], by simp, by simp⟩, γ, inv_accept h ha hp hin hl⟩
  | stay ha hx hp hl => exact inv_stay h hx hp hl
  | exit ha hx hp hl => exact inv_exit h hx hp hl
  | pass ha hx hp hl => exact inv_pass h hx hp hl

end MasterSteps

/-! ### Whole games -/

theorem inv_start (T : Table) :
    Inv T [] Game.start ⟨fun _ => T.masterInfo, [], fun _ => 0, 0, .kept⟩ := by
  have hpos := T.players_pos
  refine ⟨⟨?_, ?_, ?_, ?_, ?_, ?_, ?_⟩, ⟨rfl, fun _ _ => ⟨rfl, fun _ => rfl, rfl, rfl⟩, ?_, ?_, ?_, Or.inl rfl⟩,
    ⟨?_, ?_, ?_, ?_, ?_⟩⟩
  · exact fun n hn => absurd hn (Nat.not_lt_zero n)
  · simp [registered, Game.start, Master.start]
  · simp [registered, Game.start, Master.start]
  · simp [registered, Game.start, Master.start, Seat.start]
  · exact fun _ => hpos
  · exact fun hne => absurd rfl hne
  · simp [Game.start, Master.start]
  · exact fun n hn => absurd hn (Nat.not_lt_zero n)
  · simp
  · simp
  · exact fun n hn => absurd hn (Nat.not_lt_zero n)
  · simp
  · simp
  · simp
  · simp

section Routes

variable {T : Table} {evs : List Event} {g : Game} {γ : Ghost}

/-- Among the lines a player expects the potato is the one behind its info. -/
theorem route_expected {n k : ℕ} {pc : Pc} {l : Text} (hget : (expected T.toConfig γ pc n)[k]? = some l)
    (hl : beginsWith l routePrefix) (hi : infoSent pc n = true) :
    ∃ hs, γ.potato = .held n hs ∧ k = 3 - γ.told n := by
  rw [expected, if_pos hi] at hget
  have hlen : ((infoLines T.toConfig γ.ring n).drop (γ.told n)).length = 3 - γ.told n := by
    simp [infoLines]
  have hclose : ∀ j : ℕ, (if closeSent pc n then [closeText] else [])[j]? ≠ some l := by
    intro j hj
    have hmem := List.mem_of_getElem? hj
    split_ifs at hmem
    · obtain rfl := List.mem_singleton.mp hmem
      exact absurd hl (by decide)
    · exact absurd hmem (by simp)
  rw [List.append_assoc] at hget
  by_cases hk : k < 3 - γ.told n
  · rw [List.getElem?_append_left (by omega)] at hget
    rw [beginsWith_infoLines (List.mem_of_mem_drop (List.mem_of_getElem? hget))] at hl
    exact absurd hl (by simp)
  · rw [List.getElem?_append_right (by omega), hlen] at hget
    unfold potatoLines at hget
    split at hget
    · rename_i m hs hpot
      by_cases hmn : m = n
      · subst hmn
        refine ⟨hs, hpot, ?_⟩
        by_contra hne
        rw [if_pos rfl, List.getElem?_append_right (by simp; omega)] at hget
        exact hclose _ hget
      · rw [if_neg hmn, List.nil_append] at hget
        exact absurd hget (hclose _)
    · rw [List.nil_append] at hget
      exact absurd hget (hclose _)

/-- In the master's inbox it is alone. -/
theorem Inv.route_master (h : Inv T evs g γ) {k : ℕ} {l : Text} (hget : (todo g T.masterInfo)[k]? = some l)
    (hl : beginsWith l routePrefix) : ∃ p hs, γ.potato = .back p hs ∧ k = 0 := by
  have hidle : (g.seat T.masterInfo).pending = [] := by
    refine (h.mail.idle T.masterInfo fun hm => ?_).1
    obtain ⟨n, hn, heq⟩ := mem_registered.mp hm
    exact h.roster.ring_ne hn heq
  rw [todo, hidle, List.nil_append, h.mail.master] at hget
  by_cases hpc : g.master.pc = .accepting
  · -- players register
    have hback : backMail T.toConfig γ = [] := by simp [backMail, h.mail.potato.kept (Or.inl hpc)]
    rw [hback, List.append_nil] at hget
    obtain ⟨e, he, hle⟩ := List.mem_flatMap.mp (List.mem_of_getElem? hget)
    obtain ⟨a, -, rfl⟩ := List.mem_map.mp he
    rw [linesOf, messageLines_connectText] at hle
    obtain rfl := List.mem_singleton.mp hle
    exact absurd hl Bool.false_ne_true
  · rw [(h.roster.complete hpc).1, List.map_nil, List.nil_append] at hget
    unfold backMail at hget
    split at hget
    · rename_i p hs hback
      have hpot := h.mail.potato
      unfold PotatoOk at hpot
      rw [hback] at hpot
      have hfit := length_routeText_lt T.hops_le hpot.2.1.le
        fun x hx => lt_of_lt_of_le (hpot.2.2.lt x hx) T.players_le
      rw [List.flatMap_singleton, linesOf_routeText hfit] at hget
      obtain ⟨hk, -⟩ := List.getElem?_eq_some_iff.mp hget
      exact ⟨p, hs, hback, by simpa using hk⟩
    · exact absurd hget (by simp)

/-- A potato on its way is the one the ghost knows. -/
theorem Inv.routeAt (h : Inv T evs g γ) {a : Addr} {k : ℕ} (hr : RouteAt g a k) :
    (∃ n hs, γ.potato = .held n hs ∧ a = γ.ring n ∧ k = 3 - γ.told n) ∨
    (∃ p hs, γ.potato = .back p hs ∧ a = T.masterInfo ∧ k = 0) := by
  obtain ⟨l, hget, hl⟩ := hr
  by_cases ham : a = T.masterInfo
  · subst ham
    obtain ⟨p, hs, hpot, hk⟩ := h.route_master hget hl
    exact Or.inr ⟨p, hs, hpot, rfl, hk⟩
  · by_cases hreg : a ∈ registered γ.ring g.master.playersConnected
    · obtain ⟨n, hn, rfl⟩ := mem_registered.mp hreg
      have hs := h.mail.served n hn
      unfold Served at hs
      split_ifs at hs
      · rw [hs.2] at hget
        exact absurd hget (by simp)
      · rw [hs.1] at hget
        have hi : infoSent g.master.pc n = true := by
          by_contra hne
          rw [h.mail.expected_nil (by simpa using hne)] at hget
          exact absurd hget (by simp)
        obtain ⟨hs', hpot, hk⟩ := route_expected hget hl hi
        exact Or.inl ⟨n, hs', hpot, rfl, hk⟩
    · obtain ⟨h1, h2, -⟩ := h.mail.idle a hreg
      rw [todo, h1, h2 ham] at hget
      exact absurd hget (by simp)

end Routes

/-- The invariant holds in every game. -/
theorem inv_game (T : Table) (hh : 0 < T.hops) {tr : List (Trans Game Event)} {g : Game}
    (hr : (game T).Run Game.start tr g) :
    (∃ γ, Inv T (labels tr) g γ) ∧ ∀ pre e post, labels tr = pre ++ e :: post → EventOk T pre e := by
  apply Lts.Run.each (I := fun evs g => ∃ γ, Inv T evs g γ) (Q := EventOk T) ⟨_, inv_start T⟩ ?_ hr
  intro evs s e s' hI hst
  obtain ⟨γ, h⟩ := hI
  exact inv_step hh h hst

/-- **The potato game is safe.** In every game, whoever steps when: there is at
most one potato, and every step is one that may be (`EventOk`). -/
theorem potato_game_safe (T : Table) (hh : 0 < T.hops) {tr : List (Trans Game Event)} {g : Game}
    (hr : (game T).Run Game.start tr g) :
    (∀ a k b l, RouteAt g a k → RouteAt g b l → a = b ∧ k = l) ∧
    ∀ pre e post, labels tr = pre ++ e :: post → EventOk T pre e := by
  obtain ⟨⟨γ, hinv⟩, hev⟩ := inv_game T hh hr
  refine ⟨fun a k b l ha hb => ?_, hev⟩
  rcases hinv.routeAt ha with ⟨n, hs, hpot, rfl, rfl⟩ | ⟨p, hs, hpot, rfl, rfl⟩
  · rcases hinv.routeAt hb with ⟨n', hs', hpot', rfl, rfl⟩ | ⟨p', hs', hpot', rfl, rfl⟩
    · rw [hpot] at hpot'
      obtain ⟨rfl, -⟩ := Whereabouts.held.inj hpot'
      exact ⟨rfl, rfl⟩
    · rw [hpot] at hpot'
      exact absurd hpot' (by simp)
  · rcases hinv.routeAt hb with ⟨n', hs', hpot', rfl, rfl⟩ | ⟨p', hs', hpot', rfl, rfl⟩
    · rw [hpot] at hpot'
      exact absurd hpot' (by simp)
    · exact ⟨rfl, rfl⟩

/-- Two players, three hops. -/
def pairConfig : Config := ⟨2, 3, by decide, by decide, by decide⟩

/-- A table for two players, each of them both neighbours of the other. -/
def pairTable : Table where
  toConfig := pairConfig
  masterInfo := ⟨localhost, 5000, by decide⟩
  seats := [soloAddr, secondAddr]
  seats_length := rfl
  seats_nodup := by decide
  master_not_mem := by decide

/-- A game of theirs, from the registration to the end of all three. -/
def pairScript : List (Party × ℕ) :=
  let p := Party.player soloAddr
  let q := Party.player secondAddr
  [(p, 0), (q, 1), (.master, 0), (.master, 1), (.master, 0), (.master, 1), (.master, 0), (p, 1), (q, 0), (p, 1), (p, 0),
    (q, 1), (p, 0), (p, 1), (q, 0), (p, 1), (q, 0), (q, 1), (q, 0), (p, 1), (p, 0), (.master, 1), (.master, 0),
    (.master, 1), (p, 0), (p, 1), (q, 0), (q, 1)]

theorem potato_game_safe_pair :
    ∃ tr g, (game pairTable).Run Game.start tr g ∧ g.master.pc = .done ∧ g.master.trace = ["0,1,0".toList] ∧
      (∀ a k b l, RouteAt g a k → RouteAt g b l → a = b ∧ k = l) ∧
      ∀ pre e post, labels tr = pre ++ e :: post → EventOk pairTable pre e := by
  have hend : ((play pairTable Game.start pairScript).map fun r => (r.2.master.pc, r.2.master.trace)) =
      some (.done, ["0,1,0".toList]) := by
    decide +kernel
  obtain ⟨⟨tr, g⟩, hplay, hg⟩ := Option.map_eq_some_iff.mp hend
  obtain ⟨hpc, htrace⟩ := Prod.mk.inj hg
  have hsafe := potato_game_safe pairTable (by decide) (play_run hplay)
  exact ⟨tr, g, play_run hplay, hpc, htrace, hsafe⟩

end Potato
end Csc501

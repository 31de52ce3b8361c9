/-
# The master

`hw3/master.c`: `main` registers the players, tells each its neighbours,
sends the potato to one of them, waits for its return and closes the game.
Both times it waits in the same `recv_messages`, which returns after a
`CONNECT` as after a `ROUTE`. So the master takes a player too many, and
closes a game whose potato is still out, exactly when the message that
follows the last `CONNECT` of its registration is one more `CONNECT`
(`master_safe_iff`).

A result `none` is an exit or a value that was never set. The interrupt
handler, which closes the game at any time, is left out.

Key definitions: `Config`, `Master`, `receive`, `sendNext`, `masterMain`.
Key theorems: `receive_connect`, `receive_route`, `master_safe_iff`.
-/
import Csc501.Lib.Run
import Csc501.Potato.Wire

namespace Csc501
namespace Potato

open Lib

/-- The command line, as `main` lets it pass. -/
structure Config where
  numPlayers : ℕ
  hops : ℕ
  players_pos : 1 ≤ numPlayers
  players_le : numPlayers ≤ maxPlayers
  hops_le : hops ≤ maxHops

/-- Where `main` stands: in one of its two waits, or before the `i`-th message
of a loop. -/
inductive Pc
  | accepting
  | sendInfo (i : ℕ)
  | sendPotato
  | awaitRoute
  | closing (i : ℕ)
  | done
  deriving DecidableEq

/-- The globals of `master.c`, and the traces it has printed. The array
`players` is the memory from its first cell on. -/
structure Master where
  pc : Pc
  playersConnected : ℕ
  players : ℕ → Option Addr
  trace : List Text

def Master.start : Master := ⟨.accepting, 0, fun _ => none, []⟩

/-- A connection to a listener: where from, and what is sent. -/
structure Envelope where
  peer : Host
  text : Text
  deriving DecidableEq

/-- `players[players_connected] = player_listener; players_connected++`. -/
def Master.register (m : Master) (a : Addr) : Master :=
  { m with players := Function.update m.players m.playersConnected (some a),
           playersConnected := m.playersConnected + 1 }

/-- The loop of `recv_messages` over the lines of one message, with whether it
returns in it. -/
def recvTokens (peer : Host) (m : Master) : List Text → Option (Master × Bool)
  | [] => some (m, false)
  | token :: rest =>
    if beginsWith token routePrefix then some ({ m with trace := m.trace ++ [hopsPart token] }, true)
    else if beginsWith token connectPrefix then do
      let port ← scanNumber token
      let a ← gethostaddrinfo peer.text port
      some (m.register a, true)
    else recvTokens peer m rest

section Main

variable (c : Config)

/-- The head of the loop over `send_info_to_player`, and what comes after it. -/
def infoPc (i : ℕ) : Pc :=
  if i < c.numPlayers then .sendInfo i
  else if 0 < c.hops then .sendPotato
  else .closing 0

/-- The head of the loop of `close_master`. -/
def closePc (m : Master) (i : ℕ) : Pc := if i < m.playersConnected then .closing i else .done

/-- Where `main` goes on after a return from `recv_messages`. -/
def afterReturn (m : Master) : Pc :=
  match m.pc with
  | .accepting => if m.playersConnected < c.numPlayers then .accepting else infoPc c 0
  | .awaitRoute => closePc m 0
  | pc => pc

/-- Whether `main` waits in `recv_messages`. -/
def Master.Waits (m : Master) : Prop := m.pc = .accepting ∨ m.pc = .awaitRoute

instance (m : Master) : Decidable m.Waits := inferInstanceAs (Decidable (_ ∨ _))

/-- One message accepted in `recv_messages`; it waits on if no line is known. -/
def receive (m : Master) (e : Envelope) : Option Master := do
  let ls ← messageLines e.text
  let (m, returns) ← recvTokens e.peer m ls
  pure (if returns then { m with pc := afterReturn c m } else m)

/-- The neighbours of a player on the ring. -/
def leftOf (n : ℕ) : ℕ := (mod ((n : ℤ) - 1) c.numPlayers).toNat
def rightOf (n : ℕ) : ℕ := (mod ((n : ℤ) + 1) c.numPlayers).toNat

/-- The next message `main` sends: an info, the potato or a `CLOSE`. The player
the potato goes to is `randr`'s choice. -/
def sendNext (m : Master) (firstPlayer : ℕ) : Option (Master × Addr × Text) :=
  match m.pc with
  | .sendInfo i => do
    let a ← m.players i
    let la ← m.players (leftOf c i)
    let ra ← m.players (rightOf c i)
    pure ({ m with pc := infoPc c (i + 1) }, a, infoText i (leftOf c i) la (rightOf c i) ra)
  | .sendPotato => do
    guard (firstPlayer < c.numPlayers)
    let a ← m.players firstPlayer
    pure ({ m with pc := .awaitRoute }, a, potatoText c.hops)
  | .closing i => do
    let a ← m.players i
    pure ({ m with pc := closePc m (i + 1) }, a, closeText)
  | _ => none

/-! ### One message -/

variable {c}

theorem receive_connect (m : Master) (a : Addr) :
    receive c m ⟨a.host, connectText a.port⟩ = some { m.register a with pc := afterReturn c (m.register a) } := by
  have hscan : scanNumber (connectPrefix ++ decimal a.port) = some (a.port : ℤ) :=
    scanNumber_decimal (t := "CONNECT".toList) (by simp) (by simp) a.port
  have h1 : ¬ beginsWith (connectPrefix ++ decimal a.port) routePrefix = true := Bool.false_ne_true
  have h2 : beginsWith (connectPrefix ++ decimal a.port) connectPrefix = true := rfl
  rw [receive, messageLines_connectText]
  simp only [Option.bind_eq_bind, Option.bind_some, recvTokens, if_neg h1, if_pos h2, hscan, gethostaddrinfo_addr,
    Option.pure_def, ite_true]

/-- A route is printed, whatever the master waits for. -/
theorem receive_route (m : Master) (p : Host) {hs : List ℕ} (hlen : hs.length ≤ c.hops)
    (hlt : ∀ x ∈ hs, x < maxPlayers) :
    receive c m ⟨p, routeText c.hops hs⟩ =
      some { m with trace := m.trace ++ [hopsText hs], pc := afterReturn c m } := by
  have h1 : beginsWith (routeText c.hops hs) routePrefix = true := rfl
  rw [receive, messageLines_routeText (length_routeText_lt c.hops_le hlen hlt)]
  simp only [Option.bind_eq_bind, Option.bind_some, recvTokens, if_pos h1, hopsPart_routeText c.hops_le,
    Option.pure_def, ite_true]
  rfl

/-- What a message sent says about where `main` stood. -/
theorem sendNext_cases {m m' : Master} {f : ℕ} {a : Addr} {t : Text} (h : sendNext c m f = some (m', a, t)) :
    (∃ i la ra, m.pc = .sendInfo i ∧ m.players i = some a ∧ m.players (leftOf c i) = some la ∧
      m.players (rightOf c i) = some ra ∧ m' = { m with pc := infoPc c (i + 1) } ∧
      t = infoText i (leftOf c i) la (rightOf c i) ra) ∨
    (m.pc = .sendPotato ∧ f < c.numPlayers ∧ m.players f = some a ∧ m' = { m with pc := .awaitRoute } ∧
      t = potatoText c.hops) ∨
    (∃ i, m.pc = .closing i ∧ m.players i = some a ∧ m' = { m with pc := closePc m (i + 1) } ∧ t = closeText) := by
  unfold sendNext at h
  split at h
  · rename_i i hpc
    simp only [Option.bind_eq_bind, Option.bind_eq_some_iff, Option.pure_def, Option.some.injEq, Prod.mk.injEq] at h
    obtain ⟨_, ha, la, hla, ra, hra, rfl, rfl, rfl⟩ := h
    exact Or.inl ⟨i, la, ra, hpc, ha, hla, hra, rfl, rfl⟩
  · rename_i hpc
    simp only [Option.bind_eq_bind, Option.bind_eq_some_iff, Option.pure_def, Option.some.injEq, Prod.mk.injEq,
      Option.guard_eq_some'] at h
    obtain ⟨_, hf, _, ha, rfl, rfl, rfl⟩ := h
    exact Or.inr (Or.inl ⟨hpc, hf, ha, rfl, rfl⟩)
  · rename_i i hpc
    simp only [Option.bind_eq_bind, Option.bind_eq_some_iff, Option.pure_def, Option.some.injEq, Prod.mk.injEq] at h
    obtain ⟨_, ha, rfl, rfl, rfl⟩ := h
    exact Or.inr (Or.inr ⟨i, hpc, ha, rfl, rfl⟩)
  · exact absurd h (by simp)

/-! ### The ring -/

theorem mod_nonneg {a b : ℤ} (hb : 0 < b) : 0 ≤ mod a b := by
  have := Int.lt_tmod_of_pos a hb
  unfold mod
  split_ifs <;> omega

theorem mod_lt {a b : ℤ} (hb : 0 < b) : mod a b < b := by
  have := Int.tmod_lt_of_pos a hb
  unfold mod
  split_ifs <;> omega

theorem leftOf_lt (n : ℕ) : leftOf c n < c.numPlayers := by
  have hpos : (0 : ℤ) < c.numPlayers := by exact_mod_cast c.players_pos
  have h1 := mod_nonneg (a := (n : ℤ) - 1) hpos
  have h2 := mod_lt (a := (n : ℤ) - 1) hpos
  unfold leftOf
  omega

theorem rightOf_lt (n : ℕ) : rightOf c n < c.numPlayers := by
  have hpos : (0 : ℤ) < c.numPlayers := by exact_mod_cast c.players_pos
  have h1 := mod_nonneg (a := (n : ℤ) + 1) hpos
  have h2 := mod_lt (a := (n : ℤ) + 1) hpos
  unfold rightOf
  omega

end Main

/-! ### The master alone -/

/-- What the master does: it takes a message, or sends its next one. -/
inductive MasterEvent
  | recv (e : Envelope)
  | send (firstPlayer : ℕ) (dest : Addr) (message : Text)

/-- `main`, with the messages that reach its listener as labels. -/
def masterMain (c : Config) : Lts Master MasterEvent where
  init m := m = Master.start
  step m ev m' := match ev with
    | .recv e => m.Waits ∧ receive c m e = some m'
    | .send firstPlayer a t => sendNext c m firstPlayer = some (m', a, t)

/-- The messages a run has taken from the listener. -/
def received (tr : List (Trans Master MasterEvent)) : List Envelope :=
  (labels tr).filterMap fun ev => match ev with
    | .recv e => some e
    | .send .. => none

theorem received_append (tr tr' : List (Trans Master MasterEvent)) :
    received (tr ++ tr') = received tr ++ received tr' := by
  simp [received]

@[simp] theorem received_recv (tr : List (Trans Master MasterEvent)) (s s' : Master) (e : Envelope) :
    received (tr ++ [⟨s, .recv e, s'⟩]) = received tr ++ [e] := by
  simp [received]

@[simp] theorem received_send (tr : List (Trans Master MasterEvent)) (s s' : Master) (n : ℕ) (a : Addr) (t : Text) :
    received (tr ++ [⟨s, .send n a t, s'⟩]) = received tr := by
  simp [received]

/-- Who writes to the master: a player that registers, or one that sends back
the potato. -/
inductive Arrival
  | connect (a : Addr)
  | route (peer : Host) (hs : List ℕ)
  deriving DecidableEq

namespace Arrival

def isConnect : Arrival → Bool
  | .connect _ => true
  | .route .. => false

/-- The message on the wire. -/
def envelope (c : Config) : Arrival → Envelope
  | .connect a => ⟨a.host, connectText a.port⟩
  | .route p hs => ⟨p, routeText c.hops hs⟩

/-- A potato comes back with all its hops. -/
def Ok (c : Config) : Arrival → Prop
  | .connect _ => True
  | .route _ hs => hs.length = c.hops ∧ ∀ x ∈ hs, x < c.numPlayers

end Arrival

/-- The master has entered `close_master`. -/
def Master.Closes (m : Master) : Prop := m.pc = .done ∨ ∃ i, m.pc = .closing i

/-- Some message of `es` is a potato with all its hops. -/
def RouteSeen (c : Config) (es : List Envelope) : Prop :=
  ∃ e ∈ es, ∃ hs, hs.length = c.hops ∧ e.text = routeText c.hops hs

/-- The last `CONNECT` of the registration is not followed by a `CONNECT`. -/
def NoSurplusNext (n : ℕ) (arr : List Arrival) : Prop :=
  ∀ pre x y post, arr = pre ++ x :: y :: post → x.isConnect → y.isConnect → pre.countP (·.isConnect) + 1 ≠ n

/-- What an arrival leaves in the globals. -/
def Master.note (m : Master) : Arrival → Master
  | .connect a => m.register a
  | .route _ hs => { m with trace := m.trace ++ [hopsText hs] }

section Runs

variable {c : Config}

theorem receive_arrival (m : Master) {x : Arrival} (hx : x.Ok c) :
    receive c m (x.envelope c) = some { m.note x with pc := afterReturn c (m.note x) } := by
  cases x with
  | connect a => exact receive_connect m a
  | route p hs =>
    obtain ⟨hlen, hlt⟩ := hx
    exact receive_route m p hlen.le fun y hy => lt_of_lt_of_le (hlt y hy) c.players_le

theorem step_arrival {m : Master} {x : Arrival} (hw : m.Waits) (hx : x.Ok c) :
    (masterMain c).step m (.recv (x.envelope c)) { m.note x with pc := afterReturn c (m.note x) } :=
  ⟨hw, receive_arrival m hx⟩

theorem note_pc (m : Master) (x : Arrival) : (m.note x).pc = m.pc := by
  cases x <;> rfl

theorem note_playersConnected (m : Master) (x : Arrival) :
    (m.note x).playersConnected = m.playersConnected + if x.isConnect then 1 else 0 := by
  cases x <;> rfl

theorem infoPc_zero : infoPc c 0 = .sendInfo 0 := if_pos c.players_pos

/-- What the messages taken, in their order, say about where `main` is. -/
def MasterInv (c : Config) (took : List Arrival) (m : Master) : Prop :=
  match m.pc with
  | .accepting => m.playersConnected = took.countP (·.isConnect) ∧ m.playersConnected < c.numPlayers
  | .closing _ | .done => m.playersConnected = c.numPlayers ∧ ∃ x ∈ took, x.isConnect = false
  | _ => m.playersConnected = c.numPlayers ∧
      ∃ pre x, took = pre ++ [x] ∧ x.isConnect ∧ pre.countP (·.isConnect) + 1 = c.numPlayers

theorem masterInv_recv {arr took post : List Arrival} {x : Arrival} {m m' : Master}
    (hns : NoSurplusNext c.numPlayers arr) (harr : arr = took ++ x :: post) (hx : x.Ok c)
    (hm : MasterInv c took m) (hw : m.Waits) (hr : receive c m (x.envelope c) = some m') :
    MasterInv c (took ++ [x]) m' := by
  rw [receive_arrival m hx] at hr
  obtain rfl := Option.some.inj hr
  have hconn := note_playersConnected m x
  rcases hw with hpc | hpc
  · -- a registration: it goes on, or this was the last one
    simp only [MasterInv, hpc] at hm
    obtain ⟨hcount, hlt⟩ := hm
    have hpos := c.players_pos
    simp only [afterReturn, note_pc, hpc]
    by_cases hmore : (m.note x).playersConnected < c.numPlayers
    · rw [if_pos hmore]
      refine ⟨?_, hmore⟩
      show (m.note x).playersConnected = _
      rw [hconn, hcount, List.countP_append, List.countP_singleton]
    · rw [if_neg hmore, infoPc_zero]
      have hcx : x.isConnect = true := by
        by_contra hne
        rw [hconn, if_neg hne] at hmore
        exact hmore hlt
      rw [hconn, if_pos hcx] at hmore
      refine ⟨?_, took, x, rfl, hcx, by omega⟩
      show (m.note x).playersConnected = _
      rw [hconn, if_pos hcx]
      omega
  · -- the wait for the potato: the message is no `CONNECT`
    simp only [MasterInv, hpc] at hm
    obtain ⟨hN, pre, y, rfl, hy, hcount⟩ := hm
    have hnx : x.isConnect = false := by
      by_contra hne
      exact hns pre y x post (by simp [harr]) hy (by simpa using hne) hcount
    have hsame : (m.note x).playersConnected = c.numPlayers := by
      rw [hconn, hN, hnx]
      rfl
    simp only [afterReturn, note_pc, hpc, closePc, hsame, if_pos (show 0 < c.numPlayers from c.players_pos)]
    exact ⟨rfl, x, by simp, hnx⟩

theorem masterInv_send {took : List Arrival} {m m' : Master} {f : ℕ} {a : Addr} {t : Text} (hh : 0 < c.hops)
    (hm : MasterInv c took m) (hs : sendNext c m f = some (m', a, t)) : MasterInv c took m' := by
  rcases sendNext_cases hs with ⟨i, la, ra, hpc, -, -, -, rfl, -⟩ | ⟨hpc, -, -, rfl, -⟩ | ⟨i, hpc, -, rfl, -⟩
  · simp only [MasterInv, hpc] at hm
    unfold infoPc
    split_ifs
    · exact hm
    · exact hm
  · simp only [MasterInv, hpc] at hm
    exact hm
  · simp only [MasterInv, hpc] at hm
    unfold closePc
    split_ifs
    · exact hm
    · exact hm

theorem masterInv_run {arr : List Arrival} (hh : 0 < c.hops) (ha : ∀ x ∈ arr, x.Ok c)
    (hns : NoSurplusNext c.numPlayers arr) {tr : List (Trans Master MasterEvent)} {m : Master}
    (hr : (masterMain c).Run Master.start tr m) : received tr <+: arr.map (·.envelope c) →
    MasterInv c (arr.take (received tr).length) m := by
  refine Lts.Run.invariant (I := fun tr m => received tr <+: arr.map (·.envelope c) →
    MasterInv c (arr.take (received tr).length) m) (fun _ => ?_) ?_ hr
  · exact ⟨rfl, c.players_pos⟩
  · intro tr s ev s' _ ih hst hpre
    cases ev with
    | send f a t =>
      rw [received_send] at hpre ⊢
      exact masterInv_send hh (ih hpre) hst
    | recv e =>
      rw [received_recv] at hpre ⊢
      have hbefore : received tr <+: arr.map (·.envelope c) := (List.prefix_append _ _).trans hpre
      set k := (received tr).length with hk
      -- the message is the next arrival
      have hget : (arr.map (·.envelope c))[k]? = some e := by
        obtain ⟨rest, hrest⟩ := hpre
        rw [← hrest, List.append_assoc, hk, List.getElem?_append_right le_rfl]
        simp
      rw [List.getElem?_map, Option.map_eq_some_iff] at hget
      obtain ⟨x, hx, rfl⟩ := hget
      obtain ⟨hlt, hxk⟩ := List.getElem?_eq_some_iff.mp hx
      have harr : arr = arr.take k ++ x :: arr.drop (k + 1) := by
        rw [← hxk, List.getElem_cons_drop, List.take_append_drop]
      have htake : arr.take (k + 1) = arr.take k ++ [x] := by
        rw [List.take_add_one, hx]
        rfl
      rw [List.length_append, List.length_singleton, ← hk, htake]
      exact masterInv_recv hns harr (ha x (List.mem_of_getElem? hx)) (ih hbefore) hst.1 hst.2

/-! ### A surplus player -/

/-- The cells of the players registered are set. -/
def Master.Filled (m : Master) : Prop := ∀ i < m.playersConnected, (m.players i).isSome

theorem filled_note {m : Master} (h : m.Filled) (x : Arrival) : (m.note x).Filled := by
  cases x with
  | route p hs => exact h
  | connect a =>
    intro i hi
    have hi' : i < m.playersConnected + 1 := hi
    by_cases hlast : i = m.playersConnected
    · subst hlast
      simp [Master.note, Master.register]
    · simp only [Master.note, Master.register, Function.update_of_ne hlast]
      exact h i (by omega)

/-- While players are missing, the master takes whatever comes. -/
theorem run_registration (arr : List Arrival) (ha : ∀ x ∈ arr, x.Ok c)
    (hlt : arr.countP (·.isConnect) < c.numPlayers) :
    ∃ tr m, (masterMain c).Run Master.start tr m ∧ received tr = arr.map (·.envelope c) ∧ m.pc = .accepting ∧
      m.playersConnected = arr.countP (·.isConnect) ∧ m.Filled := by
  induction arr using List.reverseRecOn with
  | nil => exact ⟨[], _, .nil _, rfl, rfl, rfl, fun i hi => absurd hi (Nat.not_lt_zero i)⟩
  | append_singleton arr x ih =>
    rw [List.countP_append, List.countP_singleton] at hlt ⊢
    obtain ⟨tr, m, hr, hrec, hpc, hcount, hfill⟩ := ih (fun y hy => ha y (by simp [hy])) (by omega)
    have hnote : (m.note x).playersConnected < c.numPlayers := by
      rw [note_playersConnected, hcount]
      exact hlt
    have hret : afterReturn c (m.note x) = .accepting := by
      simp only [afterReturn, note_pc, hpc, if_pos hnote]
    refine ⟨_, _, hr.snoc (step_arrival (Or.inl hpc) (ha x (by simp))), ?_, hret, ?_, filled_note hfill x⟩
    · rw [received_recv, hrec]
      simp
    · show (m.note x).playersConnected = _
      rw [note_playersConnected, hcount]

/-- With all players known, the master sends its messages up to the potato. -/
theorem run_infos (hh : 0 < c.hops) {m : Master} (hfill : m.Filled) (hN : m.playersConnected = c.numPlayers) :
    ∀ k i, i + k = c.numPlayers → m.pc = infoPc c i →
      ∃ tr, (masterMain c).Run m tr { m with pc := .awaitRoute } ∧ received tr = []
  | 0, i, hi, hpc => by
    have hpot : m.pc = .sendPotato := by
      rw [hpc, infoPc, if_neg (by omega), if_pos hh]
    obtain ⟨a, ha⟩ := Option.isSome_iff_exists.mp (hfill 0 (hN ▸ c.players_pos))
    have hs : sendNext c m 0 = some ({ m with pc := .awaitRoute }, a, potatoText c.hops) := by
      have hpos : 0 < c.numPlayers := c.players_pos
      simp [sendNext, hpot, hpos, ha, guard]
    exact ⟨_, Lts.Run.single (M := masterMain c) (a := .send 0 a (potatoText c.hops)) hs, rfl⟩
  | k + 1, i, hi, hpc => by
    have hinfo : m.pc = .sendInfo i := by
      rw [hpc, infoPc, if_pos (by omega)]
    obtain ⟨a, ha⟩ := Option.isSome_iff_exists.mp (hfill i (by omega))
    obtain ⟨la, hla⟩ := Option.isSome_iff_exists.mp (hfill (leftOf c i) (hN ▸ leftOf_lt i))
    obtain ⟨ra, hra⟩ := Option.isSome_iff_exists.mp (hfill (rightOf c i) (hN ▸ rightOf_lt i))
    have hs : sendNext c m 0 = some ({ m with pc := infoPc c (i + 1) }, a,
        infoText i (leftOf c i) la (rightOf c i) ra) := by
      simp [sendNext, hinfo, ha, hla, hra]
    obtain ⟨tr, hr, hrec⟩ := run_infos hh (m := { m with pc := infoPc c (i + 1) }) hfill hN k (i + 1) (by omega) rfl
    have hfirst := Lts.Run.single (M := masterMain c) (a := .send 0 a _) hs
    refine ⟨_, hfirst.trans hr, ?_⟩
    rw [received_append, hrec]
    rfl

/-- A `CONNECT` behind the one that completes the ring is taken for the potato. -/
theorem run_surplus (hh : 0 < c.hops) {pre : List Arrival} {x y : Arrival} (hok : ∀ z ∈ pre ++ [x, y], z.Ok c)
    (hx : x.isConnect) (hy : y.isConnect) (hcount : pre.countP (·.isConnect) + 1 = c.numPlayers) :
    ∃ tr m, (masterMain c).Run Master.start tr m ∧ received tr = (pre ++ [x, y]).map (·.envelope c) ∧
      m.playersConnected = c.numPlayers + 1 ∧ m.Closes := by
  obtain ⟨tr, m, hr, hrec, hpc, hconn, hfill⟩ :=
    run_registration pre (fun z hz => hok z (by simp [hz])) (by omega)
  have hN : (m.note x).playersConnected = c.numPlayers := by
    rw [note_playersConnected, if_pos hx]
    omega
  have hret : afterReturn c (m.note x) = infoPc c 0 := by
    simp only [afterReturn, note_pc, hpc, if_neg (show ¬ (m.note x).playersConnected < c.numPlayers by omega)]
  have hlast := hr.snoc (step_arrival (Or.inl hpc) (hok x (by simp)))
  obtain ⟨tr', hr', hrec'⟩ := run_infos hh (m := { m.note x with pc := afterReturn c (m.note x) })
    (filled_note hfill x) hN c.numPlayers 0 (by omega) hret
  -- the wait for the potato takes the player too many
  have hall := (hlast.trans hr').snoc (step_arrival (Or.inr rfl) (hok y (by simp)))
  have hmany : (Master.note { m.note x with pc := .awaitRoute } y).playersConnected = c.numPlayers + 1 := by
    rw [note_playersConnected, if_pos hy]
    exact congrArg (· + 1) hN
  refine ⟨_, _, hall, ?_, hmany, Or.inr ⟨0, ?_⟩⟩
  · rw [received_recv, received_append, received_recv, hrec', hrec]
    simp
  · show afterReturn c _ = _
    rw [afterReturn, note_pc]
    show closePc _ 0 = _
    rw [closePc, hmany, if_pos (Nat.succ_pos _)]

/-- **When surplus players do no harm.** Players in any number register and the
potato comes back, in any order: the master stays inside its array, and closes
only after a potato with all its hops, exactly when the `CONNECT` that
completes the ring is not followed by one more. -/
theorem master_safe_iff (c : Config) (hh : 0 < c.hops) {arr : List Arrival} (ha : ∀ x ∈ arr, x.Ok c) :
    (∀ tr m, (masterMain c).Run Master.start tr m → received tr <+: arr.map (·.envelope c) →
      m.playersConnected ≤ c.numPlayers ∧ (m.Closes → RouteSeen c (received tr))) ↔
    NoSurplusNext c.numPlayers arr := by
  constructor
  · rintro hsafe pre x y post rfl hx hy hcount
    have hok : ∀ z ∈ pre ++ [x, y], z.Ok c := by
      intro z hz
      apply ha
      simp only [List.mem_append, List.mem_cons, List.not_mem_nil, or_false] at hz ⊢
      tauto
    obtain ⟨tr, m, hr, hrec, hmany, -⟩ := run_surplus hh hok hx hy hcount
    obtain ⟨hle, -⟩ := hsafe tr m hr (by
      rw [hrec]
      exact ⟨post.map (·.envelope c), by simp⟩)
    omega
  · intro hns tr m hr hpre
    have hinv := masterInv_run hh ha hns hr hpre
    have hmem : ∀ x ∈ arr.take (received tr).length, x.envelope c ∈ received tr := by
      intro x hx
      have := List.mem_map_of_mem (f := (·.envelope c)) hx
      rwa [List.map_take, ← List.prefix_iff_eq_take.mp hpre] at this
    have hroute : (∃ x ∈ arr.take (received tr).length, x.isConnect = false) → RouteSeen c (received tr) := by
      rintro ⟨x, hx, hnx⟩
      cases x with
      | connect a => exact absurd hnx (by simp [Arrival.isConnect])
      | route p hs => exact ⟨_, hmem _ hx, hs, (ha _ (List.mem_of_mem_take hx)).1, rfl⟩
    unfold MasterInv at hinv
    unfold Master.Closes
    cases hpc : m.pc <;> simp only [hpc] at hinv
    · exact ⟨hinv.2.le, by simp⟩
    · exact ⟨hinv.1.le, by simp⟩
    · exact ⟨hinv.1.le, by simp⟩
    · exact ⟨hinv.1.le, by simp⟩
    · exact ⟨hinv.1.le, fun _ => hroute hinv.2⟩
    · exact ⟨hinv.1.le, fun _ => hroute hinv.2⟩

end Runs

/-! ### A game for one -/

def localhost : Host := ⟨"127.0.0.1".toList, by decide⟩

/-- One player, one hop. -/
def soloConfig : Config := ⟨1, 1, by decide, by decide, by decide⟩

/-- Where its player listens. -/
def soloAddr : Addr := ⟨localhost, 5001, by decide⟩

/-- Where a second player listens. -/
def secondAddr : Addr := ⟨localhost, 5002, by decide⟩

/-- The player the master waits for, the potato's return, and a second player who is late. -/
def lateArrivals : List Arrival :=
  [.connect soloAddr, .route localhost [0], .connect secondAddr]

/-- The same with the second player before the potato is back. -/
def surplusArrivals : List Arrival :=
  [.connect soloAddr, .connect ⟨localhost, 5002, by decide⟩, .route localhost [0]]

theorem master_safe_iff_late : 0 < soloConfig.hops ∧ (∀ x ∈ lateArrivals, x.Ok soloConfig) ∧
    ∀ tr m, (masterMain soloConfig).Run Master.start tr m →
      received tr <+: lateArrivals.map (·.envelope soloConfig) →
      m.playersConnected ≤ 1 ∧ (m.Closes → RouteSeen soloConfig (received tr)) := by
  have hok : ∀ x ∈ lateArrivals, x.Ok soloConfig := by
    intro x hx
    simp only [lateArrivals, List.mem_cons, List.not_mem_nil, or_false] at hx
    rcases hx with rfl | rfl | rfl
    · trivial
    · exact ⟨rfl, by decide⟩
    · trivial
  refine ⟨by decide, hok, (master_safe_iff soloConfig (by decide) hok).mpr fun pre x y post h hx hy hcount => ?_⟩
  -- the potato comes behind the player that completes the ring
  cases pre with
  | nil =>
    obtain ⟨-, rfl, -⟩ : _ ∧ _ ∧ _ := by simpa [lateArrivals] using h
    exact absurd hy (by simp [Arrival.isConnect])
  | cons z pre =>
    obtain ⟨rfl, -⟩ : _ ∧ _ := by simpa [lateArrivals] using h
    exact absurd hcount (by simp [Arrival.isConnect, soloConfig])

/-- The second player is stored behind the array, and the game is closed with
the potato still out. -/
theorem master_takes_surplus :
    ∃ tr m, (masterMain soloConfig).Run Master.start tr m ∧
      received tr <+: surplusArrivals.map (·.envelope soloConfig) ∧
      soloConfig.numPlayers < m.playersConnected ∧ m.Closes ∧ ¬ RouteSeen soloConfig (received tr) := by
  obtain ⟨tr, m, hr, hrec, hmany, hcl⟩ := @run_surplus soloConfig (by decide) []
    (.connect soloAddr) (.connect ⟨localhost, 5002, by decide⟩)
    (by simp [Arrival.Ok]) rfl rfl rfl
  refine ⟨tr, m, hr, ?_, by omega, hcl, ?_⟩
  · rw [hrec]
    exact ⟨[(Arrival.route localhost [0]).envelope soloConfig], rfl⟩
  · rintro ⟨e, he, hs, -, ht⟩
    rw [hrec] at he
    have hhead : e.text.head? = some 'C' := by
      simp only [List.nil_append, List.map_cons, List.map_nil, List.mem_cons, List.not_mem_nil, or_false] at he
      rcases he with rfl | rfl
      · rfl
      · rfl
    have hroute : (routeText soloConfig.hops hs).head? = some 'R' := rfl
    rw [ht, hroute] at hhead
    exact absurd hhead (by decide)

end Potato
end Csc501

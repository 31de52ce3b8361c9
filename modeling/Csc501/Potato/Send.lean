/-
# Sending a message

`sendall` of `hw3/utils.c` offers the kernel what is left of the buffer until all of
it is taken or a call of `send` fails. How much a call takes is the kernel's choice:
the argument `send` says what the `k`-th call returns when it is offered `m` bytes,
which is -1 or a number from 1 to `m`.

The calls are listed with where in the buffer they begin, so the bytes handed over
are those of the calls, one after the other; they are a prefix of the buffer
(`sendall_once`). A message no call fails on is sent whole (`sendMessage_whole`).

Key definitions: `SendCall`, `sendLoop`, `sendall`, `sendMessage`.
Key theorems: `sendLoop_returns`, `sendall_once`, `sendMessage_whole`.
-/
import Csc501.Lib.CText

namespace Csc501
namespace Potato

open Lib

/-- A call of `send`: where in the buffer it begins, how many bytes it is offered and
what it returns. -/
structure SendCall where
  start : ℤ
  offered : ℤ
  result : ℤ
  deriving DecidableEq

/-- The bytes that the kernel takes in a call. -/
def SendCall.bytes (buf : Text) (x : SendCall) : Text := (buf.drop x.start.toNat).take x.result.toNat

/-- The bytes that the kernel takes in some calls. -/
def handed (buf : Text) (calls : List SendCall) : Text := calls.flatMap (SendCall.bytes buf)

/-- What `sendall` returns, what it leaves in `*len`, and the calls it has made. -/
structure Sendall where
  code : ℤ
  len : ℤ
  calls : List SendCall
  deriving DecidableEq

/-- Behind the loop; `n` is not set if there was no call. -/
def sendDone (total : ℤ) (n : Option ℤ) (calls : List SendCall) : Option Sendall := do
  let n ← n
  some ⟨if n = -1 then -1 else 0, total, calls⟩

/-- The loop of `sendall`. -/
def sendLoop (send : ℕ → ℤ → ℤ) (len : ℤ) : ℕ → ℤ → ℤ → Option ℤ → List SendCall → Option Sendall
  | 0, _, _, _, _ => none
  | fuel + 1, total, bytesleft, n, calls =>
    if total < len then
      let n := send calls.length bytesleft
      let calls := calls ++ [⟨total, bytesleft, n⟩]
      if n = -1 then sendDone total (some n) calls
      else sendLoop send len fuel (total + n) (bytesleft - n) (some n) calls
    else sendDone total n calls

/-- `sendall`, for `*len`. -/
def sendall (send : ℕ → ℤ → ℤ) (fuel : ℕ) (len : ℤ) : Option Sendall := sendLoop send len fuel 0 len none []

/-- `send_message`: the bytes up to the NUL, and whether an error is printed. -/
def sendMessage (send : ℕ → ℤ → ℤ) (fuel : ℕ) (message : Text) : Option (Sendall × Bool) := do
  let r ← sendall send fuel (cstr message).length
  some (r, r.code < 0)

/-- What `send` may return, offered `m` bytes. -/
def Answers (send : ℕ → ℤ → ℤ) : Prop := ∀ k m, 0 < m → send k m = -1 ∨ 1 ≤ send k m ∧ send k m ≤ m

/-! ### The calls -/

theorem handed_snoc (buf : Text) (calls : List SendCall) (x : SendCall) :
    handed buf (calls ++ [x]) = handed buf calls ++ x.bytes buf := by
  simp [handed]

section Loop

variable (send : ℕ → ℤ → ℤ) (buf : Text)

/-- The calls are answered by `send`, one after the other, each offered all that is left. -/
def Answered (calls : List SendCall) : Prop :=
  ∀ (k : ℕ) (x : SendCall), calls[k]? = some x → x.offered = (buf.length : ℤ) - x.start ∧ x.result = send k x.offered

/-- The calls so far have handed over the first `total` bytes, and none has failed. -/
structure Handed (total : ℕ) (calls : List SendCall) : Prop where
  answered : Answered send buf calls
  bytes : handed buf calls = buf.take total
  succeeded : ∀ x ∈ calls, x.result ≠ -1

/-- What is to hold when `sendall` returns: a prefix of the buffer was handed over,
the whole of it unless the last call failed. -/
structure Delivered (r : Sendall) : Prop where
  answered : Answered send buf r.calls
  nonneg : 0 ≤ r.len
  bytes : handed buf r.calls = buf.take r.len.toNat
  whole : (∀ x ∈ r.calls, x.result ≠ -1) → r.code = 0 ∧ r.len = buf.length
  failed : (∃ x ∈ r.calls, x.result = -1) → r.code = -1 ∧ r.len < buf.length ∧
    ∃ init x, r.calls = init ++ [x] ∧ x.result = -1 ∧ x.start = r.len ∧ ∀ y ∈ init, y.result ≠ -1

variable {send buf}

theorem Answered.snoc {calls : List SendCall} {start m : ℤ} (h : Answered send buf calls) (hm : m = buf.length - start) :
    Answered send buf (calls ++ [⟨start, m, send calls.length m⟩]) := by
  intro k x hx
  rcases Nat.lt_or_ge k calls.length with hlt | hge
  · rw [List.getElem?_append_left hlt] at hx
    exact h k x hx
  · rw [List.getElem?_append_right hge] at hx
    obtain rfl : k = calls.length := by
      have := (List.getElem?_eq_some_iff.mp hx).1
      rw [List.length_singleton] at this
      omega
    rw [Nat.sub_self] at hx
    obtain rfl := Option.some.inj hx
    exact ⟨hm, rfl⟩

/-- A call that begins behind them and takes some bytes. -/
theorem Handed.snoc {total n : ℕ} {calls : List SendCall} {m : ℤ} (h : Handed send buf total calls)
    (hm : m = buf.length - total) (hn : send calls.length m = n) :
    Handed send buf (total + n) (calls ++ [⟨total, m, n⟩]) := by
  constructor
  · rw [← hn]
    exact h.answered.snoc hm
  · rw [handed_snoc, h.bytes, SendCall.bytes, Int.toNat_natCast, Int.toNat_natCast, List.take_add]
  · intro x hx
    rcases List.mem_append.mp hx with hx | hx
    · exact h.succeeded x hx
    · obtain rfl := List.mem_singleton.mp hx
      simp only
      omega

theorem delivered_whole {n : ℤ} {calls : List SendCall} (h : Handed send buf buf.length calls) (hn : n ≠ -1) :
    ∃ r, sendDone buf.length (some n) calls = some r ∧ Delivered send buf r := by
  refine ⟨⟨0, buf.length, calls⟩, ?_, ?_⟩
  · simp [sendDone, hn]
  · constructor
    · exact h.answered
    · exact Int.natCast_nonneg _
    · exact h.bytes
    · exact fun _ => ⟨rfl, rfl⟩
    · rintro ⟨x, hx, hfail⟩
      exact absurd hfail (h.succeeded x hx)

theorem delivered_failed {total : ℕ} {calls : List SendCall} {m : ℤ} (h : Handed send buf total calls)
    (hlt : total < buf.length) (hm : m = buf.length - total) (hfail : send calls.length m = -1) :
    ∃ r, sendDone total (some (-1)) (calls ++ [⟨total, m, -1⟩]) = some r ∧ Delivered send buf r := by
  refine ⟨⟨-1, total, calls ++ [⟨total, m, -1⟩]⟩, rfl, ?_⟩
  constructor
  · rw [← hfail]
    exact h.answered.snoc hm
  · exact Int.natCast_nonneg _
  · rw [handed_snoc, h.bytes]
    simp [SendCall.bytes]
  · intro hall
    exact absurd rfl (hall ⟨total, m, -1⟩ (by simp))
  · intro _
    exact ⟨rfl, by simpa using hlt, calls, _, rfl, rfl, rfl, h.succeeded⟩

/-- **The loop returns**, from wherever it has come to, after a call for each byte that
is left at most. -/
theorem sendLoop_returns (hsend : Answers send) : ∀ {left total : ℕ} {n : Option ℤ} {calls : List SendCall},
    total + left = buf.length → Handed send buf total calls → (left = 0 → ∃ k, n = some k ∧ k ≠ -1) →
    ∃ r, (∀ fuel, left < fuel → sendLoop send buf.length fuel total left n calls = some r) ∧ Delivered send buf r
  | 0, total, n, calls, hlen, hh, hn => by
    obtain ⟨k, rfl, hk⟩ := hn rfl
    obtain rfl : total = buf.length := by omega
    obtain ⟨r, hr, hd⟩ := delivered_whole hh hk
    refine ⟨r, ?_, hd⟩
    intro fuel hfuel
    obtain ⟨fuel, rfl⟩ := Nat.exists_eq_succ_of_ne_zero hfuel.ne'
    rw [sendLoop, if_neg (lt_irrefl _), hr]
  | left + 1, total, n, calls, hlen, hh, _ => by
    have hlt : total < buf.length := by omega
    have hm : ((left + 1 : ℕ) : ℤ) = buf.length - total := by omega
    rcases hsend calls.length (left + 1 : ℕ) (by omega) with hfail | ⟨h1, h2⟩
    · obtain ⟨r, hr, hd⟩ := delivered_failed hh hlt hm hfail
      refine ⟨r, ?_, hd⟩
      intro fuel hfuel
      obtain ⟨fuel, rfl⟩ := Nat.exists_eq_succ_of_ne_zero (Nat.ne_of_gt (Nat.zero_lt_of_lt hfuel))
      rw [sendLoop, if_pos (by exact_mod_cast hlt)]
      simp only [hfail, if_true]
      exact hr
    · -- the call takes some bytes, and the rest is left to the calls behind it
      obtain ⟨k, hk⟩ := Int.eq_ofNat_of_zero_le (show 0 ≤ send calls.length (left + 1 : ℕ) by omega)
      have hcast : ((left + 1 : ℕ) : ℤ) - k = (left + 1 - k : ℕ) := by omega
      have hrest : total + k + (left + 1 - k) = buf.length := by omega
      obtain ⟨r, hr, hd⟩ := sendLoop_returns hsend (n := some k) hrest (hh.snoc hm hk) (fun _ => ⟨k, rfl, by omega⟩)
      refine ⟨r, ?_, hd⟩
      intro fuel hfuel
      obtain ⟨fuel, rfl⟩ := Nat.exists_eq_succ_of_ne_zero (Nat.ne_of_gt (Nat.zero_lt_of_lt hfuel))
      rw [sendLoop, if_pos (by exact_mod_cast hlt)]
      simp only [hk]
      rw [if_neg (by omega), hcast, ← Nat.cast_add]
      exact hr fuel (by omega)
  termination_by left => left

/-- `sendall` of a buffer that is not empty. -/
theorem sendall_returns (hsend : Answers send) (hne : buf ≠ []) :
    ∃ r, (∀ fuel, buf.length < fuel → sendall send fuel buf.length = some r) ∧ Delivered send buf r := by
  have hpos := List.length_pos_iff.mpr hne
  have hnil : Handed send buf 0 [] := ⟨by simp [Answered], by simp [handed], by simp⟩
  exact sendLoop_returns (n := none) hsend (Nat.zero_add _) hnil (fun h => by omega)

end Loop

/-- **`sendall` sends each byte once.** It returns, the bytes handed over are the first
`*len` of the buffer, in order, and it returns 0 with all of them sent if no call
failed, else -1 with what was sent before the call that did. -/
theorem sendall_once {send : ℕ → ℤ → ℤ} (hsend : Answers send) {buf : Text} (hne : buf ≠ []) :
    ∃ r, (∀ fuel, buf.length < fuel → sendall send fuel buf.length = some r) ∧ Answered send buf r.calls ∧
      0 ≤ r.len ∧ handed buf r.calls = buf.take r.len.toNat ∧
      ((∀ x ∈ r.calls, x.result ≠ -1) → r.code = 0 ∧ r.len = buf.length) ∧
      ((∃ x ∈ r.calls, x.result = -1) → r.code = -1 ∧ r.len < buf.length ∧
        ∃ init x, r.calls = init ++ [x] ∧ x.result = -1 ∧ x.start = r.len ∧ ∀ y ∈ init, y.result ≠ -1) := by
  obtain ⟨r, hr, hd⟩ := sendall_returns hsend hne
  exact ⟨r, hr, hd.answered, hd.nonneg, hd.bytes, hd.whole, hd.failed⟩

/-- A kernel that takes two bytes, then one, and then fails. -/
def twoThenFail : ℕ → ℤ → ℤ
  | 0, m => min 2 m
  | 1, _ => 1
  | _, _ => -1

theorem sendall_once_twoThenFail :
    sendall twoThenFail 6 5 = some ⟨-1, 3, [⟨0, 5, 2⟩, ⟨2, 3, 1⟩, ⟨3, 2, -1⟩]⟩ ∧
      handed "hello".toList [⟨0, 5, 2⟩, ⟨2, 3, 1⟩, ⟨3, 2, -1⟩] = "hel".toList := by
  have hsend : Answers twoThenFail := by
    intro k m hm
    match k with
    | 0 => exact Or.inr ⟨by simp only [twoThenFail]; omega, by simp only [twoThenFail]; omega⟩
    | 1 => exact Or.inr ⟨le_refl _, by simp only [twoThenFail]; omega⟩
    | _ + 2 => exact Or.inl rfl
  have hrun : sendall twoThenFail 6 5 = some ⟨-1, 3, [⟨0, 5, 2⟩, ⟨2, 3, 1⟩, ⟨3, 2, -1⟩]⟩ := by decide
  obtain ⟨r, hr, -, -, hbytes, -⟩ := sendall_once hsend (show "hello".toList ≠ [] by decide)
  obtain rfl := Option.some.inj (hrun.symm.trans (hr 6 (by decide)))
  exact ⟨hrun, hbytes⟩

/-- A message is sent whole if no call fails, and no error is printed. -/
theorem sendMessage_whole {send : ℕ → ℤ → ℤ} (hsend : Answers send) (hok : ∀ k m, send k m ≠ -1) {message : Text}
    (hne : message ≠ []) (hnul : '\x00' ∉ message) :
    ∃ r, (∀ fuel, message.length < fuel → sendMessage send fuel message = some (r, false)) ∧
      handed message r.calls = message := by
  obtain ⟨r, hr, hd⟩ := sendall_returns hsend hne
  have hall : ∀ x ∈ r.calls, x.result ≠ -1 := by
    intro x hx
    obtain ⟨k, hk⟩ := List.getElem?_of_mem hx
    rw [(hd.answered k x hk).2]
    exact hok k x.offered
  obtain ⟨hcode, hlen⟩ := hd.whole hall
  refine ⟨r, ?_, ?_⟩
  · intro fuel hfuel
    rw [sendMessage, cstr_eq_self hnul, hr fuel hfuel]
    simp [hcode]
  · rw [hd.bytes, hlen, Int.toNat_natCast, List.take_length]

end Potato
end Csc501

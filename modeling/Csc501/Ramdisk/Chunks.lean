/-
# Reading a file piece by piece

A reader asks for as many bytes as it likes at a time, first at the start of the
file and then each time behind what it got (`readOn`). What `rd_read` hands over
are the bytes from the offset on, as many as were asked for or are left
(`rdRead_piece`); a read that starts at the end of the file, behind it or in front
of it gets nothing. The pieces are the file, cut where the reader cut it
(`chunked_reads`).

Key definitions: `Reply.piece`, `readOn`.
Key theorems: `rdRead_piece`, `rdRead_outside`, `readOn_pieces`, `chunked_reads`.
-/
import Csc501.Ramdisk.Contents
import Csc501.Ramdisk.Parents

namespace Csc501
namespace Ramdisk

open Lib

/-- The bytes a read hands over: as many of those in the buffer as its code says. -/
def Reply.piece (r : Reply) : List UInt8 := r.bytes.take r.code.toNat

/-- Reads of the sizes given, the first at `offset` and each next one at the offset
advanced by what the read before it returned. -/
def readOn (path : Text) : List ℕ → Disk → ℤ → Option (List Reply)
  | [], _, _ => some []
  | n :: ns, d, offset => do
    let (d', r) ← rdRead d path n offset
    let rs ← readOn path ns d' (offset + r.code)
    some (r :: rs)

section Pieces

variable {d : Disk} {path : Text} {p : ℕ} {f : RdFile}

/-- A read in front of the file or behind it. -/
theorem rdRead_outside (hs : Shape d) (hb : Bounded d) (h : Target d path p f) {n : ℕ} {offset : ℤ} (hn : n ≤ maxWrite)
    (hlo : -2 ^ 63 ≤ offset) (hhi : offset < 2 ^ 63) (hout : offset < 0 ∨ (f.size : ℤ) ≤ offset) :
    rdRead d path n offset = some (d, .ofCode 0) := by
  have hn' : n < 2 ^ 63 := hn.trans_lt (by decide)
  rw [rdRead_eq hs h.valid h.found h.heap h.regular (hb p f h.heap h.regular) hn' hlo hhi, if_neg]
  omega

/-- **What a read hands over.** -/
theorem rdRead_piece (hs : Shape d) (hb : Bounded d) (h : Target d path p f) {n k : ℕ} (hn : n ≤ maxWrite)
    (hk : k ≤ f.size) :
    ∃ r, rdRead d path n k = some (d, r) ∧ r.piece = ((contents f).drop k).take n ∧ r.code = r.piece.length := by
  have hsize := hb p f h.heap h.regular
  have hlen := hs.length_contents h.heap h.regular
  have hcap : maxCapacity < 2 ^ 31 := by decide
  have hn' : n < 2 ^ 63 := hn.trans_lt (by decide)
  rcases Nat.lt_or_ge k f.size with hlt | hge
  · have hin : (0 : ℤ) ≤ k ∧ (k : ℤ) < f.size := ⟨Int.natCast_nonneg k, by exact_mod_cast hlt⟩
    have hint : toInt (min n (f.size - k) : ℕ) = (min n (f.size - k) : ℕ) := by
      apply toInt_eq_self
      · omega
      · omega
    rw [rdRead_eq hs h.valid h.found h.heap h.regular hsize hn' (by omega) (by omega), if_pos hin]
    rw [Int.toNat_natCast, hint]
    have hmin : ((contents f).drop k).take (min n (f.size - k)) = ((contents f).drop k).take n := by
      rw [← hlen, ← List.length_drop, ← List.take_eq_take_min]
    have hpiece : Reply.piece { Reply.ofCode (min n (f.size - k) : ℕ) with
        bytes := ((contents f).drop k).take (min n (f.size - k)) ++ [0] } = ((contents f).drop k).take n := by
      show (((contents f).drop k).take (min n (f.size - k)) ++ [0]).take (min n (f.size - k)) = _
      rw [List.take_append_of_le_length, List.take_take, Nat.min_self, hmin]
      rw [List.length_take, List.length_drop, hlen]
      omega
    refine ⟨_, rfl, hpiece, ?_⟩
    rw [hpiece, List.length_take, List.length_drop, hlen]
    rfl
  · refine ⟨_, rdRead_outside hs hb h hn (by omega) (by omega) (Or.inr (by exact_mod_cast hge)), ?_, ?_⟩
    · rw [List.drop_of_length_le (by omega), List.take_nil]
      rfl
    · rfl

/-- The pieces from an offset inside the file on. -/
theorem readOn_pieces (hs : Shape d) (hb : Bounded d) (h : Target d path p f) : ∀ {ns : List ℕ} {k : ℕ},
    (∀ n ∈ ns, n ≤ maxWrite) → k ≤ f.size →
    ∃ rs, readOn path ns d k = some rs ∧ rs.length = ns.length ∧
      (rs.map Reply.piece).flatten = ((contents f).drop k).take ns.sum ∧
      ∀ i n r, ns[i]? = some n → rs[i]? = some r → r.code = r.piece.length ∧
        r.piece.length = min n (f.size - k - ((rs.take i).map Reply.piece).flatten.length)
  | [], k, _, _ => ⟨[], rfl, rfl, by simp, by simp⟩
  | n :: ns, k, hns, hk => by
    have hlen := hs.length_contents h.heap h.regular
    obtain ⟨r, hr, hpiece, hcode⟩ := rdRead_piece hs hb h (hns n List.mem_cons_self) hk
    have hplen : r.piece.length = min n (f.size - k) := by
      rw [hpiece, List.length_take, List.length_drop, hlen]
    obtain ⟨rs, hrs, hl, hflat, hall⟩ := readOn_pieces hs hb h (fun x hx => hns x (List.mem_cons_of_mem n hx))
      (show k + r.piece.length ≤ f.size by omega)
    refine ⟨r :: rs, ?_, by simp [hl], ?_, ?_⟩
    · simp only [readOn, hr, Option.bind_eq_bind, Option.bind_some, hcode]
      rw [← Nat.cast_add, hrs]
      rfl
    · -- a piece that is too short ends the file
      have hrest : ((contents f).drop (k + r.piece.length)).take ns.sum =
          (((contents f).drop k).drop n).take ns.sum := by
        rw [List.drop_drop]
        rcases Nat.le_total n (f.size - k) with hle | hge
        · rw [hplen, Nat.min_eq_left hle]
        · rw [List.drop_of_length_le (by omega), List.drop_of_length_le (by omega)]
      rw [List.map_cons, List.flatten_cons, hflat, hrest, hpiece, List.sum_cons, List.take_add]
    · intro i m x hm hx
      cases i with
      | zero =>
        obtain rfl : n = m := by simpa using hm
        obtain rfl : r = x := by simpa using hx
        exact ⟨hcode, by simpa using hplen⟩
      | succ i =>
        obtain ⟨h1, h2⟩ := hall i m x (by simpa using hm) (by simpa using hx)
        refine ⟨h1, ?_⟩
        rw [h2, List.take_succ_cons, List.map_cons, List.flatten_cons, List.length_append]
        omega

end Pieces

/-- **Reads one behind the other return the file**, whatever is asked for at a
time: the pieces make up its contents, each is as long as was asked for or as
there are bytes left, and nothing is returned only when the file is read. A read
that starts elsewhere gets nothing. -/
theorem chunked_reads {m : ℤ} {d : Disk} {path : Text} {p : ℕ} {f : RdFile} (hm : Capacity m)
    (hd : (requests m).Reachable d) (habs : Absolute path) (hfile : getRdFile d path = some (some p))
    (hp : d.heap p = some f) (hreg : f.type = .regular) :
    (∀ ns : List ℕ, (∀ n ∈ ns, 1 ≤ n ∧ n ≤ maxWrite) → ∃ rs, readOn path ns d 0 = some rs ∧ rs.length = ns.length ∧
      (rs.map Reply.piece).flatten = (contents f).take ns.sum ∧
      (f.size ≤ ns.sum → (rs.map Reply.piece).flatten = contents f) ∧
      ∀ i n r, ns[i]? = some n → rs[i]? = some r → r.code = r.piece.length ∧
        r.piece.length = min n (f.size - ((rs.take i).map Reply.piece).flatten.length) ∧
        (r.code = 0 → f.size ≤ ((rs.take i).map Reply.piece).flatten.length)) ∧
    ∀ (n : ℕ) (offset : ℤ), n ≤ maxWrite → -2 ^ 63 ≤ offset → offset < 2 ^ 63 →
      (offset < 0 ∨ (f.size : ℤ) ≤ offset) → rdRead d path n offset = some (d, .ofCode 0) := by
  obtain ⟨hs, hl⟩ := ledger_reachable hm hd
  have hb := hl.bounded
  obtain ⟨q, g, name, hfound⟩ := found_of_getRdFile hs.shape habs hfile
  obtain ⟨p', f', ht⟩ := IsRegular.target hs.shape ⟨p, f, hfile, hp, hreg⟩ hfound.parentFound habs
  obtain rfl : p = p' := by simpa [hfile] using ht.found
  obtain rfl : f = f' := by simpa [hp] using ht.heap
  refine ⟨?_, fun n offset hn hlo hhi hout => rdRead_outside hs.shape hb ht hn hlo hhi hout⟩
  intro ns hns
  obtain ⟨rs, h1, h2, h3, h4⟩ := readOn_pieces hs.shape hb ht (k := 0) (fun n hn => (hns n hn).2) (Nat.zero_le _)
  rw [List.drop_zero] at h3
  refine ⟨rs, h1, h2, h3, ?_, ?_⟩
  · intro hall
    rw [h3, List.take_of_length_le ((hs.shape.length_contents hp hreg).trans_le hall)]
  · intro i n r hi hr
    obtain ⟨hcode, hlen⟩ := h4 i n r hi hr
    rw [Nat.sub_zero] at hlen
    refine ⟨hcode, hlen, ?_⟩
    intro h0
    have hpos := (hns n (List.mem_of_getElem? hi)).1
    omega

/-- A file is made. -/
theorem reachable_emptyFile : (requests (2 ^ 20)).Reachable emptyFile := by
  have hcreate : (requests (2 ^ 20)).step (Disk.start (2 ^ 20) zeroed) (.create "/f".toList, .ofCode 0) emptyFile :=
    ⟨⟨⟨_, rfl⟩, nofun, nofun⟩, rfl⟩
  exact ⟨_, _, ⟨_, rfl⟩, .single hcreate⟩

/-- A file of two bytes: it is made, and written once. -/
theorem reachable_twoBytes : (requests (2 ^ 20)).Reachable (emptyFile.withBytes [0, 1]) := by
  have hwrite : (requests (2 ^ 20)).step emptyFile (.write "/f".toList [0, 1] 0, .ofCode 2)
      (emptyFile.withBytes [0, 1]) := by
    refine ⟨⟨⟨_, rfl⟩, ?_, nofun⟩, exec_emptyFile⟩
    rintro p b o ⟨⟩
    decide
  exact reachable_emptyFile.step hwrite

/-- The file of two bytes, read in two pieces of which the second is cut at its end. -/
theorem chunked_reads_twoBytes : Capacity (2 ^ 20) ∧ (requests (2 ^ 20)).Reachable (emptyFile.withBytes [0, 1]) ∧
    ∃ rs, readOn "/f".toList [1, 2] (emptyFile.withBytes [0, 1]) 0 = some rs ∧
      (rs.map Reply.piece).flatten = [0, 1] := by
  have hd := reachable_twoBytes
  have ht := target_withBytes [0, 1]
  obtain ⟨rs, h1, -, -, h2, -⟩ := (chunked_reads megabyte hd ⟨_, rfl⟩ ht.found ht.heap ht.regular).1 [1, 2] (by decide)
  exact ⟨megabyte, hd, rs, h1, h2 (by decide)⟩

end Ramdisk
end Csc501

/-
# What is handed to the kernel

Two callbacks fill in memory of the caller. `rd_read` gets a buffer of exactly as
many bytes as are asked for; it copies the bytes of the file and stores a NUL
behind them. If the read is cut at the end of the file, the NUL is still in the
buffer; if it is not, the NUL is the byte behind the buffer (`read_inside_iff`).

`rd_statfs` reports the space that is used as the size of the file system, and
`div_round_up` rounds to the nearest number of blocks. So what it reports fits
together only on a disk with less than half a block left (`statfs_consistent_iff`).

Key definitions: `Reply.onto`, `Inside`, `Unclamped`, `Consistent`.
Key theorems: `rdRead_stored`, `read_inside_iff`, `divRoundUp_eq`, `statfs_consistent_iff`.
-/
import Csc501.Ramdisk.Chunks
import Csc501.Ramdisk.Mount

namespace Csc501
namespace Ramdisk

open Lib

/-! ### The buffer of a read -/

/-- The caller's memory, from the start of the buffer on, after a reply stored its
bytes there. -/
def Reply.onto (r : Reply) (memory : List UInt8) : List UInt8 :=
  r.bytes.take memory.length ++ memory.drop r.bytes.length

/-- A reply changes nothing in memory but the first `n` bytes. -/
def Inside (n : ℕ) (r : Reply) : Prop := ∀ memory i, n ≤ i → (r.onto memory)[i]? = memory[i]?

/-- All the bytes asked for are there: a read of `n` bytes from `offset` on is not
cut at the end of the file. -/
def Unclamped (d : Disk) (path : Text) (n : ℕ) (offset : ℤ) : Prop :=
  validPath path = true ∧ ∃ p f, getRdFile d path = some (some p) ∧ d.heap p = some f ∧ f.type = .regular ∧
    0 ≤ offset ∧ offset < f.size ∧ offset + n ≤ f.size

/-- What is stored is inside exactly if it is not too much. -/
theorem inside_iff (n : ℕ) (r : Reply) : Inside n r ↔ r.bytes.length ≤ n := by
  constructor
  · intro h
    by_contra hlt
    -- memory that differs from the byte stored at index `n`
    obtain ⟨b, hb⟩ : ∃ b, r.bytes[n]? = some b := ⟨_, List.getElem?_eq_getElem (not_le.mp hlt)⟩
    have hmem := h (List.replicate (n + 1) (b + 1)) n le_rfl
    rw [Reply.onto, List.getElem?_append_left, List.getElem?_take_of_lt, hb] at hmem
    · simp at hmem
    · simp
    · simp only [List.length_take, List.length_replicate]
      omega
  · intro hle memory i hi
    rw [Reply.onto]
    rcases Nat.lt_or_ge memory.length r.bytes.length with hlt | hge
    · rw [List.drop_of_length_le (by omega), List.append_nil, List.getElem?_eq_none (by simp; omega),
        List.getElem?_eq_none (by omega)]
    · rw [List.getElem?_append_right (by simp; omega), List.getElem?_drop]
      congr 1
      simp only [List.length_take]
      omega

section Read

variable {d : Disk} {path : Text} {n : ℕ} {offset : ℤ}

/-- **How many bytes a read stores**: one more than it returns. -/
theorem rdRead_stored {p : ℕ} {f : RdFile} (hs : Shape d) (hb : Bounded d) (hv : validPath path = true)
    (hfound : getRdFile d path = some (some p)) (hp : d.heap p = some f) (hreg : f.type = .regular)
    (hn : n < 2 ^ 63) (hlo : -2 ^ 63 ≤ offset) (hhi : offset < 2 ^ 63) :
    ∃ r, rdRead d path n offset = some (d, r) ∧ r.bytes.length =
      if 0 ≤ offset ∧ offset < f.size then min n (f.size - offset.toNat) + 1 else 0 := by
  have hlen := hs.length_contents hp hreg
  rw [rdRead_eq hs hv hfound hp hreg (hb p f hp hreg) hn hlo hhi]
  split_ifs with hin
  · refine ⟨_, rfl, ?_⟩
    simp only [List.length_append, List.length_take, List.length_drop, List.length_singleton, hlen]
    omega
  · exact ⟨_, rfl, rfl⟩

/-- A read that finds no regular file stores nothing. -/
theorem rdRead_blank {d' : Disk} {r : Reply} (h : rdRead d path n offset = some (d', r))
    (hno : ¬ ∃ p f, validPath path = true ∧ getRdFile d path = some (some p) ∧ d.heap p = some f ∧
      f.type = .regular) : r.bytes = [] := by
  unfold rdRead at h
  split_ifs at h with hv
  · simp only [Option.some.injEq, Prod.mk.injEq] at h
    rw [← h.2]
    rfl
  · have hval : validPath path = true := by simpa using hv
    simp only [Option.bind_eq_bind, Option.bind_eq_some_iff] at h
    obtain ⟨o, hfound, h⟩ := h
    cases o with
    | none =>
      simp only [Option.some.injEq, Prod.mk.injEq] at h
      rw [← h.2]
      rfl
    | some p =>
      simp only [Option.bind_eq_some_iff] at h
      obtain ⟨f, hp, h⟩ := h
      have hdir : f.type = .directory := by
        cases ht : f.type with
        | directory => rfl
        | regular => exact absurd ⟨p, f, hval, hfound, hp, ht⟩ hno
      rw [if_pos hdir] at h
      simp only [Option.some.injEq, Prod.mk.injEq] at h
      rw [← h.2]
      rfl

/-- **A read stays inside the buffer exactly if it is cut at the end of the file**, or
finds nothing to read. -/
theorem read_inside_iff {m : ℤ} (hm : Capacity m) (hd : (requests m).Reachable d) (hn : n < 2 ^ 63)
    (hlo : -2 ^ 63 ≤ offset) (hhi : offset < 2 ^ 63) :
    (∀ d' r, rdRead d path n offset = some (d', r) → Inside n r) ↔ ¬ Unclamped d path n offset := by
  obtain ⟨hs, hl⟩ := ledger_reachable hm hd
  have hb := hl.bounded
  constructor
  · rintro hin ⟨hv, p, f, hfound, hp, hreg, h0, hlt, hle⟩
    obtain ⟨r, hr, hlen⟩ := rdRead_stored hs.shape hb hv hfound hp hreg hn hlo hhi
    have h := (inside_iff n r).mp (hin d r hr)
    rw [hlen, if_pos ⟨h0, hlt⟩] at h
    omega
  · intro hcut d' r hr
    rw [inside_iff]
    by_cases hex : ∃ p f, validPath path = true ∧ getRdFile d path = some (some p) ∧ d.heap p = some f ∧
        f.type = .regular
    · obtain ⟨p, f, hv, hfound, hp, hreg⟩ := hex
      obtain ⟨r', hr', hlen⟩ := rdRead_stored hs.shape hb hv hfound hp hreg hn hlo hhi
      obtain ⟨-, rfl⟩ : d' = d ∧ r = r' := by simpa [hr] using hr'
      rw [hlen]
      split_ifs with hin
      · have hlong : ¬ offset + n ≤ f.size := fun h => hcut ⟨hv, p, f, hfound, hp, hreg, hin.1, hin.2, h⟩
        omega
      · exact Nat.zero_le n
    · rw [rdRead_blank hr hex]
      exact Nat.zero_le n

end Read

/-- A read of five bytes of a file of two is cut, and stays in its buffer. -/
theorem read_inside_iff_twoBytes : (requests (2 ^ 20)).Reachable (emptyFile.withBytes [0, 1]) ∧
    ∀ d' r, rdRead (emptyFile.withBytes [0, 1]) "/f".toList 5 0 = some (d', r) → Inside 5 r := by
  refine ⟨reachable_twoBytes, ?_⟩
  apply (read_inside_iff megabyte reachable_twoBytes (by decide) (by decide) (by decide)).mpr
  rintro ⟨-, p, f, hfound, hp, -, -, -, hle⟩
  have ht := target_withBytes [0, 1]
  obtain rfl := Option.some.inj (Option.some.inj (ht.found.symm.trans hfound))
  obtain rfl := Option.some.inj (ht.heap.symm.trans hp)
  exact absurd hle (by decide)

/-- A read of one byte of that file stores two. -/
theorem nul_behind_buffer : (requests (2 ^ 20)).Reachable (emptyFile.withBytes [0, 1]) ∧
    ∃ r, rdRead (emptyFile.withBytes [0, 1]) "/f".toList 1 0 = some (emptyFile.withBytes [0, 1], r) ∧ ¬ Inside 1 r := by
  have ht := target_withBytes [0, 1]
  obtain ⟨hs, hl⟩ := ledger_reachable megabyte reachable_twoBytes
  obtain ⟨r, hr, hlen⟩ := rdRead_stored hs.shape hl.bounded ht.valid ht.found ht.heap ht.regular
    (show 1 < 2 ^ 63 by decide) (show -2 ^ 63 ≤ (0 : ℤ) by decide) (by decide)
  refine ⟨reachable_twoBytes, r, hr, ?_⟩
  rw [inside_iff, hlen]
  decide

/-! ### The state of the file system -/

/-- `div_round_up` of a number that is not near `2 ^ 32`. -/
theorem divRoundUp_eq {a b : ℕ} (h : a + b / 2 < 2 ^ 32) : divRoundUp a b = (a + b / 2) / b := by
  rw [divRoundUp, Nat.mod_eq_of_lt h]

/-- What `rd_statfs` fills in fits together, on a file system of `m` bytes: its size,
the blocks that are free, and the bytes that are used. -/
structure Consistent (m : ℤ) (d : Disk) (v : StatVfs) : Prop where
  blocks : (v.blocks : ℤ) = m / bytesPerBlock
  same : v.bfree = v.bavail
  le : v.bfree ≤ v.blocks
  free : (v.bfree : ℤ) * bytesPerBlock ≤ m - d.currentBytes
  enough : d.currentBytes ≤ ((v.blocks : ℤ) - v.bfree) * bytesPerBlock

/-- No call changes the capacity. -/
theorem Outcome.maxBytes {d d' : Disk} {op : Op} (h : Outcome d op d') : d'.maxBytes = d.maxBytes := by
  cases h with
  | same => rfl
  | set => rfl
  | add => rfl
  | remove => rfl

theorem maxBytes_reachable {m : ℤ} {d : Disk} (hm : Capacity m) (hd : (requests m).Reachable d) : d.maxBytes = m := by
  refine Lts.reachable_invariant (I := fun d => d.maxBytes = m) (fun s hs => ?_) (fun s e s' hr h hst => ?_) hd
  · obtain ⟨stale, rfl⟩ : ∃ stale, s = Disk.start m stale := hs
    rfl
  · rw [(exec_outcome (ledger_reachable hm hr).1 hst.1.absolute hst.2).maxBytes, h]

/-- What `rd_statfs` fills in, on a disk that is not too large. -/
theorem rdStatfs_eq {d : Disk} {used free : ℕ} (hused : d.currentBytes = used)
    (hfree : d.maxBytes - d.currentBytes = free) (h1 : used ≤ maxCapacity) (h2 : free ≤ maxCapacity) :
    rdStatfs d = some (d, { Reply.ofCode 0 with vfs := some ⟨nameMax, bytesPerBlock, bytesPerBlock,
      (used + 2048) / 4096, (free + 2048) / 4096, (free + 2048) / 4096⟩ }) := by
  unfold maxCapacity at h1 h2
  have hu : divRoundUp (toUnsigned used) bytesPerBlock = (used + 2048) / 4096 := by
    rw [toUnsigned_natCast (by omega)]
    exact divRoundUp_eq (by unfold bytesPerBlock; omega)
  have hf : divRoundUp (toUnsigned free) bytesPerBlock = (free + 2048) / 4096 := by
    rw [toUnsigned_natCast (by omega)]
    exact divRoundUp_eq (by unfold bytesPerBlock; omega)
  rw [rdStatfs, hfree, hused, hu, hf]

/-- **`rd_statfs` is consistent exactly on a disk with less than half a block left.** -/
theorem statfs_consistent_iff {m : ℤ} {d : Disk} (hm : Capacity m) (hd : (requests m).Reachable d) :
    (∃ r v, rdStatfs d = some (d, r) ∧ r.vfs = some v ∧ Consistent m d v) ↔
      m - d.currentBytes < bytesPerBlock / 2 := by
  obtain ⟨-, hl⟩ := ledger_reachable hm hd
  have hmax := maxBytes_reachable hm hd
  have hcount := hl.counted
  have hroom := hl.room
  have hcap := hl.capacity
  obtain ⟨free, hfree⟩ := Int.eq_ofNat_of_zero_le (show 0 ≤ d.maxBytes - d.currentBytes by omega)
  have heq := rdStatfs_eq hcount hfree (by omega) (by omega)
  obtain ⟨k, hk⟩ := hm.megabytes
  constructor
  · rintro ⟨r, v, hr, hv, hcons⟩
    obtain ⟨-, rfl⟩ := Prod.mk.inj (Option.some.inj (heq.symm.trans hr))
    obtain rfl := Option.some.inj hv
    -- the size reported is the space used, so hardly any is left
    have hblocks := hcons.blocks
    have hbfree := hcons.free
    simp only [bytesPerBlock] at hblocks hbfree ⊢
    omega
  · intro hlt
    refine ⟨_, _, heq, rfl, ?_⟩
    simp only [bytesPerBlock] at hlt
    constructor
    · simp only [bytesPerBlock]
      omega
    · rfl
    · simp only
      omega
    · simp only [bytesPerBlock]
      omega
    · simp only [bytesPerBlock]
      omega

/-- What the kernel calls are requests. -/
theorem Vfs.request {d : Disk} {op : Op} (h : Vfs d op) : Request op := by
  refine ⟨h.absolute, fun p b o hop => ?_, h.read⟩
  obtain ⟨-, hsizes⟩ := h.write p b o hop
  exact hsizes

theorem requests_of_disk {m : ℤ} {d₀ d : Disk} {tr : List (Trans Disk (Op × Reply))} (hr : (disk m).Run d₀ tr d) :
    (requests m).Run d₀ tr d := by
  induction hr with
  | nil => exact .nil _
  | snoc _ hst ih => exact ih.snoc ⟨hst.1.request, hst.2⟩

/-- A disk of 1 MB that is full: one file has all of it. -/
theorem statfs_consistent_iff_full : ∃ d, Capacity (2 ^ 20) ∧ (requests (2 ^ 20)).Reachable d ∧
    d.currentBytes = 2 ^ 20 ∧ ∃ r v, rdStatfs d = some (d, r) ∧ r.vfs = some v ∧ Consistent (2 ^ 20) d v := by
  have hblock : (List.replicate 4096 (0 : UInt8)).length = 4096 := List.length_replicate
  obtain ⟨tr, d, f, hr, hdraft, -, hsize⟩ : ∃ tr d f, (disk (2 ^ 20)).Run (Disk.start (2 ^ 20) zeroed) tr d ∧
      Draft (Disk.start (2 ^ 20) zeroed) root emptyRoot f d ∧ f.name = "f".toList ∧ f.size = 4096 * 256 :=
    filled megabyte hblock 256 (by decide)
  have hd : (requests (2 ^ 20)).Reachable d := ⟨_, tr, ⟨_, rfl⟩, requests_of_disk hr⟩
  have hfull : d.currentBytes = 2 ^ 20 := by
    rw [hdraft.counted, hsize]
    rfl
  exact ⟨d, megabyte, hd, hfull, (statfs_consistent_iff megabyte hd).mpr (by rw [hfull]; decide)⟩

/-- A new disk of one megabyte is reported to have the size zero. -/
theorem statfs_size_zero : (requests (2 ^ 20)).Reachable (Disk.start (2 ^ 20) zeroed) ∧
    ∃ r v, rdStatfs (Disk.start (2 ^ 20) zeroed) = some (Disk.start (2 ^ 20) zeroed, r) ∧ r.vfs = some v ∧
      v.blocks = 0 ∧ v.bfree = 256 ∧ ¬ Consistent (2 ^ 20) (Disk.start (2 ^ 20) zeroed) v := by
  refine ⟨⟨_, [], ⟨_, rfl⟩, .nil _⟩, _, _, rfl, rfl, by decide, by decide, ?_⟩
  intro h
  exact absurd h.le (by decide)

end Ramdisk
end Csc501

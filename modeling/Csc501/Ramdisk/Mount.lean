/-
# The capacity on the command line

`main` takes a number of megabytes and multiplies it by 1024 twice, in `int`s,
before the product becomes the `long` `max_bytes`; then it refuses a capacity
below zero. From 2048 MB on the product wraps around, and for every other block
of 2048 the number that is left is not negative and passes the test, as it does
for half of the negative numbers.

The disk keeps to `max_bytes` (`honest_step`), so it keeps to what was asked for
exactly if the product did not wrap (`capacity_honoured_iff`): with more than
2047 MB it is full too early (`filled`), and a negative size, which is to be
refused, is none that anything can keep to.

Key definitions: `maxBytesOf`, `mount`, `growth`, `Within`, `Honest`, `Honours`.
Key theorems: `within_write`, `within_mkdir`, `honest_step`, `filled`, `capacity_honoured_iff`.
-/
import Csc501.Ramdisk.Inverse

namespace Csc501
namespace Ramdisk

open Lib

/-- `atoi(..) * 1024 * 1024`, for the number that `atoi` returns. -/
def maxBytesOf (size : ℤ) : ℤ := toInt (toInt (size * 1024) * 1024)

/-- `main`, from the size on: the disk that is mounted, or `none` if it exits with
an error. -/
def mount (size : ℤ) (stale : ℕ → Bool) : Option Disk :=
  if maxBytesOf size < 0 then none else some (Disk.start (maxBytesOf size) stale)

/-- The bytes that a write or a new directory adds. -/
def growth (d : Disk) : Op → ℕ
  | .write path buffer offset =>
    match getRdFile d path with
    | some (some p) => (offset + buffer.length - sizeAt d p).toNat
    | _ => 0
  | .mkdir _ => directoryBytes
  | _ => 0

/-- The call stores something. -/
def Op.Stores : Op → Prop
  | .write _ _ _ | .mkdir _ => True
  | _ => False

/-- An answer keeps to the limit: the call is refused for want of space only if the
bytes stored would be too many, and not accepted then. -/
structure Within (limit : ℤ) (d : Disk) (op : Op) (r : Reply) : Prop where
  refused : r.code = -enospc → limit < used d + growth d op
  accepted : 0 ≤ r.code → (used d : ℤ) + growth d op ≤ limit

/-- A step that stores something keeps to the limit. -/
def Honest (limit : ℤ) (t : Trans Disk (Op × Reply)) : Prop :=
  t.label.1.Stores → Within limit t.src t.label.1 t.label.2

/-- The disk keeps to the size it is mounted with, in every run. -/
def Honours (size : ℤ) : Prop :=
  ∀ stale tr d, (disk (maxBytesOf size)).Run (Disk.start (maxBytesOf size) stale) tr d →
    ∀ t ∈ tr, Honest (size * 2 ^ 20) t

/-! ### The product -/

theorem maxBytesOf_eq (size : ℤ) : maxBytesOf size = toInt (size * 2 ^ 20) := by
  unfold maxBytesOf toInt
  rw [Int.bmod_mul_bmod]
  congr 1
  ring

/-- The product is off by a multiple of `2 ^ 32`. -/
theorem maxBytesOf_wraps (size : ℤ) : ∃ k : ℤ, maxBytesOf size = size * 2 ^ 20 + 2 ^ 32 * k := by
  obtain ⟨k, hk⟩ := Int.dvd_bmod_sub_self (x := size * 2 ^ 20) (m := 2 ^ 32)
  refine ⟨k, ?_⟩
  rw [maxBytesOf_eq, toInt]
  rw [sub_eq_iff_eq_add'] at hk
  exact hk

theorem capacity_maxBytesOf {size : ℤ} (h : 0 ≤ maxBytesOf size) : Capacity (maxBytesOf size) := by
  refine ⟨h, ?_, ?_⟩
  · rw [maxBytesOf_eq, toInt]
    exact Int.bmod_lt (by decide)
  · obtain ⟨k, hk⟩ := maxBytesOf_wraps size
    exact ⟨size + 2 ^ 12 * k, by rw [hk]; ring⟩

theorem maxBytesOf_exact {size : ℤ} (h1 : 0 ≤ size) (h2 : size < 2048) : maxBytesOf size = size * 2 ^ 20 := by
  rw [maxBytesOf_eq]
  exact toInt_eq_self (by omega) (by omega)

/-! ### The disk keeps to `max_bytes` -/

section Step

variable {d d' : Disk} {m : ℤ} {stale : ℕ → Bool} {e : Op × Reply}

theorem growth_write {path : Text} {p : ℕ} {f : RdFile} (ht : Target d path p f) (buffer : List UInt8) (k : ℕ) :
    growth d (.write path buffer k) = k + buffer.length - f.size := by
  simp only [growth, ht.found, sizeAt, ht.heap, Option.map_some, Option.getD_some]
  omega

/-- An answer that is neither `-ENOSPC` nor a success. -/
theorem within_error {limit : ℤ} {op : Op} {code : ℤ} (h1 : code ≠ -enospc) (h2 : code < 0) :
    Within limit d op (.ofCode code) :=
  ⟨fun h => absurd h h1, fun h => absurd h (not_le.mpr h2)⟩

/-- A success, where there is room. -/
theorem within_success {limit : ℤ} {op : Op} {n : ℕ} (h : (used d : ℤ) + growth d op ≤ limit) :
    Within limit d op (.ofCode n) := by
  refine ⟨?_, fun _ => h⟩
  intro hcode
  have hneg : (n : ℤ) = -enospc := hcode
  unfold enospc at hneg
  omega

theorem within_write {path : Text} {buffer : List UInt8} {offset : ℤ} {r : Reply} (hi : Inv d)
    (hv : Vfs d (.write path buffer offset)) (hw : rdWrite d path buffer offset = some (d', r)) :
    Within d.maxBytes d (.write path buffer offset) r := by
  obtain ⟨hreg, hlen, hlo, hhi⟩ := hv.write path buffer offset rfl
  obtain ⟨p, f, ht⟩ := hreg.target hi.shape hv.parent hv.absolute
  have hsize := hi.bounded p f ht.heap ht.regular
  have hc := hi.counted
  have hroom := hi.room
  by_cases hout : offset < 0 ∨ (f.size : ℤ) < offset
  · rw [rdWrite_beyond ht hsize hlo hhi hout] at hw
    obtain ⟨-, rfl⟩ := Prod.mk.inj (Option.some.inj hw)
    exact within_error (by decide) (by decide)
  · rw [not_or, not_lt, not_lt] at hout
    obtain ⟨k, rfl⟩ := Int.eq_ofNat_of_zero_le hout.1
    have hk : k ≤ f.size := by exact_mod_cast hout.2
    have hgrow := growth_write ht buffer k
    rw [rdWrite_eq hi.shape ht hsize hlen hk] at hw
    split_ifs at hw with h1 h2 h3
    · obtain ⟨-, rfl⟩ := Prod.mk.inj (Option.some.inj hw)
      exact ⟨fun _ => by omega, fun h => absurd h (by decide)⟩
    · obtain ⟨-, rfl⟩ := Prod.mk.inj (Option.some.inj hw)
      exact within_success (by omega)
    · obtain ⟨-, rfl⟩ := Prod.mk.inj (Option.some.inj hw)
      exact within_success (by omega)
    · obtain ⟨-, rfl⟩ := Prod.mk.inj (Option.some.inj hw)
      exact within_success (by omega)

theorem within_mkdir {path : Text} {r : Reply} (hi : Inv d) (hv : Vfs d (.mkdir path))
    (hw : rdMkdir d path = some (d', r)) : Within d.maxBytes d (.mkdir path) r := by
  obtain ⟨q, g, name, hf⟩ := hv.found hi.shape
  have hf : Found d path q g name := hf
  have hc := hi.counted
  have hgrow : growth d (.mkdir path) = directoryBytes := rfl
  rw [hf.rdMkdir] at hw
  split_ifs at hw with h1 h2
  · obtain ⟨-, rfl⟩ := Prod.mk.inj (Option.some.inj hw)
    exact within_error (by decide) (by decide)
  · obtain ⟨-, rfl⟩ := Prod.mk.inj (Option.some.inj hw)
    have hfull : ¬ d.currentBytes + directoryBytes ≤ d.maxBytes := by simpa [memoryAvailable] using h2
    exact ⟨fun _ => by omega, fun h => absurd h (by decide)⟩
  · have hfits : d.currentBytes + directoryBytes ≤ d.maxBytes := by simpa [memoryAvailable] using h2
    rcases getFile_cases name (hi.shape.live hf.heap) with ⟨hg, -⟩ | ⟨p, f, hg, -⟩
    · rw [hg] at hw
      obtain ⟨-, rfl⟩ := Prod.mk.inj (Option.some.inj hw)
      exact within_success (n := 0) (by omega)
    · rw [hg] at hw
      obtain ⟨-, rfl⟩ := Prod.mk.inj (Option.some.inj hw)
      exact within_error (by decide) (by decide)

/-- **A step keeps to `max_bytes`.** -/
theorem honest_step (hi : Inv d) (hst : (disk m).step d e d') : Honest d.maxBytes ⟨d, e, d'⟩ := by
  obtain ⟨op, r⟩ := e
  obtain ⟨hv, hex⟩ := hst
  intro hop
  cases op with
  | write path buffer offset => exact within_write hi hv hex
  | mkdir path => exact within_mkdir hi hv hex
  | _ => exact absurd hop id

/-- A run keeps to `max_bytes`. -/
theorem honest_run {tr : List (Trans Disk (Op × Reply))} (hm : Capacity m)
    (hr : (disk m).Run (Disk.start m stale) tr d) : ∀ t ∈ tr, Honest m t := by
  intro t ht
  obtain ⟨⟨tr', hr'⟩, hst⟩ := hr.step_of_mem ht
  have hreach : (disk m).Reachable t.src := ⟨_, _, ⟨_, rfl⟩, hr'⟩
  have hmax := (space_accounted hm hreach).1
  exact hmax ▸ honest_step (inv_reachable hm hreach) hst

end Step

/-! ### Filling the disk -/

section Fill

variable {m : ℤ} {stale : ℕ → Bool}

/-- The root of an empty disk. -/
def emptyRoot : RdFile := createRdFile rootName [] .directory

theorem found_start (m : ℤ) (stale : ℕ → Bool) : Found (Disk.start m stale) "/f".toList root emptyRoot "f".toList :=
  ⟨⟨_, _, rfl, rfl, rfl⟩, rfl, rfl⟩

theorem vfs_create (m : ℤ) (stale : ℕ → Bool) : Vfs (Disk.start m stale) (.create "/f".toList) :=
  ⟨⟨_, rfl⟩, ⟨_, _, root, rfl, rfl⟩, nofun, nofun, nofun⟩

theorem draft_create (m : ℤ) (stale : ℕ → Bool) : Draft (Disk.start m stale) root emptyRoot
    { createRdFile "f".toList rootName .regular with parent := some root }
    (addFile (Disk.start m stale) root emptyRoot (createRdFile "f".toList rootName .regular)) :=
  ⟨⟨rfl, rfl, rfl, rfl⟩, rfl, rfl, rfl⟩

/-- The file `/f` may be written to. -/
theorem Draft.vfs_write {d : Disk} {f : RdFile} (hd : Draft (Disk.start m stale) root emptyRoot f d)
    (buffer : List UInt8) (k : ℕ) (hname : f.name = "f".toList) (hlen : buffer.length ≤ maxWrite)
    (hk : k < 2 ^ 63) : Target d "/f".toList 1 f ∧ Vfs d (.write "/f".toList buffer k) := by
  have hf : Found (Disk.start m stale) "/f".toList root emptyRoot f.name := hname ▸ found_start m stale
  have ht : Target d "/f".toList 1 f := hd.target (tree_start m stale).shape hf ⟨_, rfl⟩ (by decide) rfl
  refine ⟨ht, ⟨_, rfl⟩, ?_, nofun, ?_, nofun⟩
  · exact (hd.beside.found (tree_start m stale).shape hf ⟨_, rfl⟩ (by decide)).parentFound
  · rintro p b o ⟨⟩
    exact ⟨⟨1, f, ht.found, ht.heap, ht.regular⟩, hlen, by omega, by omega⟩

/-- Bytes are put behind those there are, if there is room. -/
theorem Draft.append {d : Disk} {f : RdFile} (hd : Draft (Disk.start m stale) root emptyRoot f d) (buffer : List UInt8)
    (hname : f.name = "f".toList) (hi : Inv d) (hlen : buffer.length ≤ maxWrite) (hpos : 0 < buffer.length)
    (hroom : ((f.size + buffer.length : ℕ) : ℤ) ≤ m) :
    ∃ d' f' r, (disk m).step d (.write "/f".toList buffer f.size, r) d' ∧
      Draft (Disk.start m stale) root emptyRoot f' d' ∧ f'.name = "f".toList ∧ f'.size = f.size + buffer.length := by
  have hcap := hi.capacity
  have hmax : d.maxBytes = m := hd.beside.maxBytes
  have hbig : maxCapacity < 2 ^ 31 := by decide
  have hcount : d.currentBytes = f.size := hd.counted.trans (zero_add _)
  obtain ⟨ht, hv⟩ := hd.vfs_write buffer f.size hname hlen (by omega)
  have hw := rdWrite_eq hi.shape ht (hi.bounded _ _ ht.heap ht.regular) hlen le_rfl
  rw [if_pos (by omega), if_neg (by omega)] at hw
  have hset := hd.set (tree_start m stale).shape rfl (grown (contents f) buffer f.size) (f.size + buffer.length)
  have hsame : (Disk.start m stale).currentBytes + (f.size + buffer.length : ℕ) =
      d.currentBytes + (((f.size + buffer.length : ℕ) : ℤ) - f.size) := by
    show (0 : ℤ) + _ = _
    omega
  rw [hsame] at hset
  exact ⟨_, _, _, ⟨hv, hw⟩, hset, hname, rfl⟩

/-- **The disk is filled** with one file, block by block. -/
theorem filled (hm : Capacity m) {block : List UInt8} (hblock : block.length = 4096) : ∀ k : ℕ, (4096 * k : ℤ) ≤ m →
    ∃ tr d f, (disk m).Run (Disk.start m stale) tr d ∧ Draft (Disk.start m stale) root emptyRoot f d ∧
      f.name = "f".toList ∧ f.size = 4096 * k
  | 0, _ => ⟨_, _, _, .single (a := (.create "/f".toList, .ofCode 0)) ⟨vfs_create m stale, rfl⟩,
      draft_create m stale, rfl, rfl⟩
  | k + 1, hk => by
    push_cast at hk
    obtain ⟨tr, d, f, hr, hd, hname, hsize⟩ := filled hm hblock k (by omega)
    have hi := inv_reachable hm ⟨_, _, ⟨_, rfl⟩, hr⟩
    obtain ⟨d', f', r, hst, hd', hname', hsize'⟩ := hd.append block hname hi (by rw [hblock]; decide)
      (by omega) (by omega)
    exact ⟨_, d', f', hr.snoc hst, hd', hname', by omega⟩

/-- On a disk that is full, the next block is refused. -/
theorem full (hm : Capacity m) (stale : ℕ → Bool) : ∃ tr d op r d',
    (disk m).Run (Disk.start m stale) (tr ++ [⟨d, (op, r), d'⟩]) d' ∧ op.Stores ∧ r.code = -enospc ∧ (used d : ℤ) + growth d op = m + 4096 := by
  obtain ⟨block, hblock⟩ : ∃ b : List UInt8, b.length = 4096 := ⟨List.replicate 4096 0, List.length_replicate⟩
  obtain ⟨n, hn⟩ := hm.megabytes
  have hnonneg := hm.nonneg
  obtain ⟨tr, d, f, hr, hd, hname, hsize⟩ := filled hm hblock (256 * n.toNat) (by push_cast; omega)
  have hi := inv_reachable hm ⟨_, _, ⟨_, rfl⟩, hr⟩
  have hmax : d.maxBytes = m := hd.beside.maxBytes
  have hcount : d.currentBytes = f.size := hd.counted.trans (zero_add _)
  have hc := hi.counted
  have hcap := hm.lt
  have hlen : block.length ≤ maxWrite := by
    rw [hblock]
    decide
  obtain ⟨ht, hv⟩ := hd.vfs_write block f.size hname hlen (by omega)
  have hw := rdWrite_eq hi.shape ht (hi.bounded _ _ ht.heap ht.regular) hlen le_rfl
  rw [if_pos (by omega), if_pos (by omega)] at hw
  refine ⟨tr, d, .write "/f".toList block f.size, .ofCode (-enospc), d, hr.snoc ⟨hv, hw⟩, trivial, rfl, ?_⟩
  rw [growth_write ht]
  omega

end Fill

/-- **The size on the command line is kept to exactly from 0 to 2047 MB**, of the
sizes that `main` accepts. -/
theorem capacity_honoured_iff {size : ℤ} {stale : ℕ → Bool} {d₀ : Disk} (hlo : -2 ^ 31 ≤ size) (hhi : size < 2 ^ 31)
    (hmount : mount size stale = some d₀) : Honours size ↔ 0 ≤ size ∧ size < 2048 := by
  have hacc : 0 ≤ maxBytesOf size := by
    by_contra hneg
    rw [mount, if_pos (by omega)] at hmount
    exact absurd hmount (by simp)
  have hm := capacity_maxBytesOf hacc
  refine ⟨?_, ?_⟩
  · intro h
    by_contra hout
    obtain ⟨k, hk⟩ := maxBytesOf_wraps size
    have hlt := hm.lt
    by_cases hneg : size < 0
    · -- nothing is stored, and this is too much already
      have hd := draft_create (maxBytesOf size) stale
      obtain ⟨ht, hv⟩ := hd.vfs_write [] 0 rfl (by decide) (by decide)
      have hstep : (disk (maxBytesOf size)).step _ (.write "/f".toList [] (0 : ℕ), .ofCode 0) _ := ⟨hv, rfl⟩
      have hrun := (Lts.Run.single (M := disk (maxBytesOf size)) (a := (.create "/f".toList, .ofCode 0))
        ⟨vfs_create _ stale, rfl⟩).snoc hstep
      have hkept := (h _ _ _ hrun _ (List.mem_append_right _ List.mem_cons_self) trivial).accepted le_rfl
      omega
    · obtain ⟨tr, d, op, r, d', hrun, hst, hcode, htotal⟩ := full hm stale
      have hkept := (h _ _ _ hrun ⟨d, (op, r), d'⟩ (by simp) hst).refused hcode
      have htotal' : (used d : ℤ) + growth d op = maxBytesOf size + 4096 := htotal
      have hkept' : size * 2 ^ 20 < (used d : ℤ) + growth d op := hkept
      omega
  · rintro ⟨h1, h2⟩ stale tr d hr
    rw [← maxBytesOf_exact h1 h2]
    exact honest_run hm hr

/-- With 4096 MB nothing can be stored at all. -/
theorem nothing_fits : ∃ d₀, mount 4096 zeroed = some d₀ ∧ rdMkdir d₀ "/f".toList = some (d₀, .ofCode (-enospc)) ∧
    ¬ Honours 4096 := by
  have hmount : mount 4096 zeroed = some (Disk.start 0 zeroed) := if_neg (by decide)
  refine ⟨Disk.start 0 zeroed, hmount, rfl, ?_⟩
  intro h
  have hv : Vfs (Disk.start 0 zeroed) (.mkdir "/f".toList) := ⟨⟨_, rfl⟩, ⟨_, _, root, rfl, rfl⟩, nofun, nofun, nofun⟩
  have hstep : (disk (maxBytesOf 4096)).step (Disk.start 0 zeroed) (.mkdir "/f".toList, .ofCode (-enospc))
      (Disk.start 0 zeroed) := ⟨hv, rfl⟩
  have hkept := (h _ _ _ (.single hstep) _ List.mem_cons_self trivial).refused rfl
  exact absurd hkept (by decide)

theorem capacity_honoured_iff_hundred : (∃ d₀, mount 100 zeroed = some d₀) ∧ Honours 100 := by
  have hmount : mount 100 zeroed = some (Disk.start (maxBytesOf 100) zeroed) := if_neg (by decide)
  exact ⟨⟨_, hmount⟩, (capacity_honoured_iff (by decide) (by decide) hmount).mpr (by decide)⟩

end Ramdisk
end Csc501

/-
# Blocks of a file

`div_round_up` adds half of the divisor before it divides, so it rounds to the nearest
number, and the sum may wrap around. It rounds up exactly if the sum does not, and there
is either nothing to round or at least half of a divisor (`divRoundUp_covers_iff`).

`fill_stats` has the blocks of a regular file from it. On a disk that runs, no file is
large enough for the sum to wrap around, so the blocks cover the file, and no more, exactly
if the last block is full or at least half full (`fillStats_covers_iff`); a small file has
none. `rd_getattr` and `rd_readdir` hand that over (`stats_covers_iff`).

Key definitions: `Covers`, `Reply.stats`, `FromDisk`.
Key theorems: `isLeast_iff_covers`, `divRoundUp_covers_iff`, `fillStats_covers_iff`, `divRoundUp_least_iff`,
`stats_covers_iff`.
-/
import Csc501.Ramdisk.Kernel

namespace Csc501
namespace Ramdisk

open Lib

/-! ### Rounding -/

/-- `q` blocks of `b` bytes are enough for `a` bytes, and less than a block is wasted. -/
structure Covers (a b q : ℕ) : Prop where
  enough : a ≤ q * b
  waste : q * b < a + b

/-- The least number of blocks that are enough. -/
theorem isLeast_iff_covers {a b q : ℕ} (hb : 0 < b) : IsLeast {q | a ≤ q * b} q ↔ Covers a b q := by
  constructor
  · rintro ⟨henough, hleast⟩
    refine ⟨henough, ?_⟩
    by_contra hwaste
    -- one block less is enough
    have hfewer : a ≤ (q - 1) * b := by
      rw [Nat.sub_mul, Nat.one_mul]
      omega
    have hle : q ≤ q - 1 := hleast hfewer
    have hzero : q = 0 := by omega
    rw [hzero, Nat.zero_mul] at hwaste
    omega
  · intro h
    refine ⟨h.enough, ?_⟩
    intro q' hq'
    have hlt : q * b < (q' + 1) * b := by
      calc q * b < a + b := h.waste
        _ ≤ q' * b + b := Nat.add_le_add_right hq' b
        _ = (q' + 1) * b := (Nat.succ_mul q' b).symm
    exact Nat.le_of_lt_succ (Nat.lt_of_mul_lt_mul_right hlt)

/-- Without wrapping around, one is added to the quotient if the remainder is half of the
divisor or more. -/
theorem divRoundUp_of_lt {a b : ℕ} (hb : 0 < b) (h : a + b / 2 < 2 ^ 32) :
    divRoundUp a b = a / b + if b ≤ 2 * (a % b) then 1 else 0 := by
  have hmod : a % b < b := Nat.mod_lt a hb
  have hsum : a + b / 2 = b * (a / b) + (a % b + b / 2) := by
    rw [← Nat.add_assoc, Nat.div_add_mod]
  rw [divRoundUp_eq h, hsum, Nat.mul_add_div hb]
  congr 1
  split_ifs with hhalf
  · apply Nat.div_eq_of_lt_le
    · omega
    · omega
  · exact Nat.div_eq_of_lt (by omega)

/-- If the sum wraps around, less than a divisor is left of it. -/
theorem divRoundUp_of_ge {a b : ℕ} (ha : a < 2 ^ 32) (hb : b < 2 ^ 32) (h : 2 ^ 32 ≤ a + b / 2) :
    divRoundUp a b = 0 := by
  have hwrap : (a + b / 2) % 2 ^ 32 = a + b / 2 - 2 ^ 32 := by omega
  rw [divRoundUp, hwrap]
  exact Nat.div_eq_of_lt (by omega)

theorem divRoundUp_covers_iff {a b : ℕ} (ha : a < 2 ^ 32) (hb : b < 2 ^ 32) (hpos : 0 < b) :
    Covers a b (divRoundUp a b) ↔ a + b / 2 < 2 ^ 32 ∧ (a % b = 0 ∨ b ≤ 2 * (a % b)) := by
  have hmod : a % b < b := Nat.mod_lt a hpos
  have hdiv : a / b * b + a % b = a := Nat.div_add_mod' a b
  by_cases hwrap : a + b / 2 < 2 ^ 32
  · rw [divRoundUp_of_lt hpos hwrap]
    split_ifs with hhalf
    · refine iff_of_true ⟨?_, ?_⟩ ⟨hwrap, Or.inr hhalf⟩
      · rw [Nat.succ_mul]
        omega
      · rw [Nat.succ_mul]
        omega
    · rw [Nat.add_zero]
      constructor
      · intro h
        have henough := h.enough
        exact ⟨hwrap, Or.inl (by omega)⟩
      · rintro ⟨-, hexact | hhalf'⟩
        · exact ⟨by omega, by omega⟩
        · exact absurd hhalf' hhalf
  · rw [divRoundUp_of_ge ha hb (by omega)]
    constructor
    · intro h
      have henough := h.enough
      rw [Nat.zero_mul] at henough
      omega
    · rintro ⟨hlt, -⟩
      exact absurd hlt hwrap

/-! ### Files -/

theorem fillStats_size {f : RdFile} (hreg : f.type = .regular) : (fillStats f).size = f.size := by
  unfold fillStats
  rw [hreg]

/-- **The blocks of a regular file cover it** exactly if its last block is full, or half
full at least. -/
theorem fillStats_covers_iff {m : ℤ} {d : Disk} (hm : Capacity m) (hd : (requests m).Reachable d) {p : ℕ} {f : RdFile}
    (hp : d.heap p = some f) (hreg : f.type = .regular) :
    Covers (fillStats f).size (fillStats f).blksize (fillStats f).blocks ↔
      f.size % bytesPerBlock = 0 ∨ bytesPerBlock ≤ 2 * (f.size % bytesPerBlock) := by
  obtain ⟨-, hl⟩ := ledger_reachable hm hd
  have hsize : f.size ≤ maxCapacity := hl.bounded p f hp hreg
  unfold maxCapacity at hsize
  have hfits : f.size + bytesPerBlock / 2 < 2 ^ 32 := by
    unfold bytesPerBlock
    omega
  have hblocks : (fillStats f).blocks = divRoundUp f.size bytesPerBlock := by
    simp only [fillStats, hreg]
    rw [toUnsigned_natCast (by omega)]
  have hblksize : (fillStats f).blksize = bytesPerBlock := by simp only [fillStats, hreg]
  rw [hblocks, hblksize, fillStats_size hreg, divRoundUp_covers_iff (by omega) (by decide) (by decide)]
  exact and_iff_right hfits

/-- **`div_round_up` rounds up exactly if the remainder is zero or at least half of the
divisor**, and the sum does not wrap around. So the blocks of a file cover it exactly if
its last block is full, or half full at least. -/
theorem divRoundUp_least_iff {a b : ℕ} (ha : a < 2 ^ 32) (hb : b < 2 ^ 32) (hpos : 0 < b) :
    (IsLeast {q | a ≤ q * b} (divRoundUp a b) ↔ a + b / 2 < 2 ^ 32 ∧ (a % b = 0 ∨ b ≤ 2 * (a % b))) ∧
    ∀ m d, Capacity m → (requests m).Reachable d → ∀ p f, d.heap p = some f → f.type = .regular →
      (Covers (fillStats f).size (fillStats f).blksize (fillStats f).blocks ↔
        f.size % bytesPerBlock = 0 ∨ bytesPerBlock ≤ 2 * (f.size % bytesPerBlock)) := by
  constructor
  · rw [isLeast_iff_covers hpos]
    exact divRoundUp_covers_iff ha hb hpos
  · intro m d hm hd p f hp hreg
    exact fillStats_covers_iff hm hd hp hreg

/-- A remainder of 3000 is rounded up, and an empty file has no block. -/
theorem divRoundUp_least_iff_instance : IsLeast {q | 3000 ≤ q * 4096} (divRoundUp 3000 4096) ∧
    (requests (2 ^ 20)).Reachable emptyFile ∧ ∃ f, emptyFile.heap 1 = some f ∧
      Covers (fillStats f).size (fillStats f).blksize (fillStats f).blocks := by
  have hall := divRoundUp_least_iff (show 3000 < 2 ^ 32 by decide) (show 4096 < 2 ^ 32 by decide) (by decide)
  refine ⟨hall.1.mpr (by decide), reachable_emptyFile, _, target_emptyFile.heap, ?_⟩
  apply (hall.2 _ _ megabyte reachable_emptyFile 1 _ target_emptyFile.heap rfl).mpr
  decide

/-- A file of two bytes has no block. -/
theorem twoBytes_no_block : divRoundUp 2 4096 = 0 ∧ ¬ IsLeast {q | 2 ≤ q * 4096} (divRoundUp 2 4096) ∧
    (requests (2 ^ 20)).Reachable (emptyFile.withBytes [0, 1]) ∧
    ∃ f, (emptyFile.withBytes [0, 1]).heap 1 = some f ∧ f.type = .regular ∧ (fillStats f).size = 2 ∧
      (fillStats f).blocks = 0 ∧ ¬ Covers (fillStats f).size (fillStats f).blksize (fillStats f).blocks := by
  refine ⟨by decide, ?_, reachable_twoBytes, _, (target_withBytes [0, 1]).heap, rfl, rfl, by decide, ?_⟩
  · intro h
    exact absurd h.1 (by decide)
  · intro h
    exact absurd h.enough (by decide)

/-! ### What is handed over -/

section Stats

variable {d d' : Disk} {path : Text} {r : Reply}

/-- All that `fill_stats` filled in for a reply. -/
def Reply.stats (r : Reply) : List Stat := r.stat.toList ++ r.entries.map (·.2)

/-- Each of them is about a file of the disk. -/
def FromDisk (d : Disk) (r : Reply) : Prop := ∀ st ∈ r.stats, ∃ p f, d.heap p = some f ∧ st = fillStats f

theorem stats_code {code : ℤ} (h : some (d, Reply.ofCode code) = some (d', r)) : FromDisk d r := by
  obtain ⟨-, rfl⟩ := Prod.mk.inj (Option.some.inj h)
  intro st hst
  cases hst

theorem stats_fillStats {p : ℕ} {f : RdFile} (hp : d.heap p = some f)
    (h : some (d, { Reply.ofCode 0 with stat := some (fillStats f) }) = some (d', r)) : FromDisk d r := by
  obtain ⟨-, rfl⟩ := Prod.mk.inj (Option.some.inj h)
  intro st hst
  obtain rfl := List.mem_singleton.mp hst
  exact ⟨p, f, hp, rfl⟩

theorem fillEntries_stats {ps : List ℕ} : ∀ {entries}, fillEntries d ps = some entries →
    ∀ st ∈ entries.map (·.2), ∃ p f, d.heap p = some f ∧ st = fillStats f := by
  induction ps with
  | nil =>
    intro entries h st hst
    obtain rfl := Option.some.inj h
    simp at hst
  | cons p ps ih =>
    intro entries h st hst
    obtain ⟨f, hp, h⟩ := Option.bind_eq_some_iff.mp h
    obtain ⟨rest, hrest, h⟩ := Option.bind_eq_some_iff.mp h
    obtain rfl := Option.some.inj h
    rw [List.map_cons, List.mem_cons] at hst
    rcases hst with rfl | hst
    · exact ⟨p, f, hp, rfl⟩
    · exact ih hrest st hst

theorem stats_entries {p : ℕ} (h : ((d.heap p).bind fun f =>
    if f.type = .regular then some (d, Reply.ofCode (-enoent))
    else (fillEntries d f.files).bind fun entries =>
      some (d, { Reply.ofCode 0 with entries := entries })) = some (d', r)) : FromDisk d r := by
  obtain ⟨f, -, h⟩ := Option.bind_eq_some_iff.mp h
  split_ifs at h
  · exact stats_code h
  · obtain ⟨entries, hentries, h⟩ := Option.bind_eq_some_iff.mp h
    obtain ⟨-, rfl⟩ := Prod.mk.inj (Option.some.inj h)
    exact fillEntries_stats hentries

/-- What `rd_getattr` hands over is about a file of the disk. -/
theorem rdGetattr_stats (h : rdGetattr d path = some (d', r)) : FromDisk d r := by
  unfold rdGetattr at h
  obtain ⟨⟨fileNames, count⟩, -, h⟩ := Option.bind_eq_some_iff.mp h
  by_cases hroot : path = rootName
  · simp only [if_pos hroot] at h
    obtain ⟨f, hp, h⟩ := Option.bind_eq_some_iff.mp h
    exact stats_fillStats hp h
  · simp only [if_neg hroot] at h
    obtain ⟨found, -, h⟩ := Option.bind_eq_some_iff.mp h
    cases found with
    | none => exact stats_code h
    | some q =>
      obtain ⟨g, -, h⟩ := Option.bind_eq_some_iff.mp h
      obtain ⟨name, -, h⟩ := Option.bind_eq_some_iff.mp h
      obtain ⟨found, -, h⟩ := Option.bind_eq_some_iff.mp h
      cases found with
      | none => exact stats_code h
      | some p =>
        obtain ⟨f, hp, h⟩ := Option.bind_eq_some_iff.mp h
        exact stats_fillStats hp h

/-- So is what `rd_readdir` hands over. -/
theorem rdReaddir_stats (h : rdReaddir d path = some (d', r)) : FromDisk d r := by
  unfold rdReaddir at h
  obtain ⟨⟨fileNames, count⟩, -, h⟩ := Option.bind_eq_some_iff.mp h
  obtain ⟨found, -, h⟩ := Option.bind_eq_some_iff.mp h
  cases found with
  | none => exact stats_code h
  | some q =>
    obtain ⟨g, -, h⟩ := Option.bind_eq_some_iff.mp h
    obtain ⟨name, -, h⟩ := Option.bind_eq_some_iff.mp h
    by_cases hroot : path = rootName
    · simp only [if_pos hroot] at h
      exact stats_entries h
    · simp only [if_neg hroot] at h
      obtain ⟨found, -, h⟩ := Option.bind_eq_some_iff.mp h
      cases found with
      | none => exact stats_code h
      | some p => exact stats_entries h

/-- **The blocks that are handed over** cover a file exactly if its last block is full, or
half full at least. -/
theorem stats_covers_iff {m : ℤ} (hm : Capacity m) (hd : (requests m).Reachable d)
    (h : rdGetattr d path = some (d', r) ∨ rdReaddir d path = some (d', r)) {st : Stat} (hst : st ∈ r.stats)
    (hreg : st.type = .regular) :
    Covers st.size st.blksize st.blocks ↔
      st.size % bytesPerBlock = 0 ∨ bytesPerBlock ≤ 2 * (st.size % bytesPerBlock) := by
  have hfrom : FromDisk d r := h.elim rdGetattr_stats rdReaddir_stats
  obtain ⟨p, f, hp, rfl⟩ := hfrom st hst
  rw [fillStats_type] at hreg
  rw [fillStats_covers_iff hm hd hp hreg, fillStats_size hreg]

end Stats

end Ramdisk
end Csc501

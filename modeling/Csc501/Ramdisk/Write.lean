/-
# Writing and reading a file

What `rd_write` does to a regular file, without its conversions: a request
that starts behind the end is refused; one that stays inside the file is
stored in place; one that makes the file grow is refused if there is no room,
and otherwise stored behind what `strncpy` copied of the old contents
(`rdWrite_eq`). The sizes are those of files on a disk of less than 2 GB and
of requests of FUSE, and for those no conversion changes a value
(`sizes_exact`). `rd_read` gives what is there of the bytes asked for
(`rdRead_eq`).

Key definitions: `contents`, `Target`, `grown`, `splice`.
Key theorems: `rdWrite_beyond`, `rdWrite_eq`, `rdRead_eq`.
-/
import Csc501.Ramdisk.Tree

namespace Csc501
namespace Ramdisk

open Lib

/-- The largest capacity: 2047 MB. -/
def maxCapacity : ℕ := 2 ^ 31 - 2 ^ 20

theorem Capacity.le {m : ℤ} (h : Capacity m) : m ≤ maxCapacity := by
  obtain ⟨k, hk⟩ := h.megabytes
  have := h.lt
  unfold maxCapacity
  omega

/-- The contents of a regular file. -/
def contents (f : RdFile) : List UInt8 := (f.data.getD []).take f.size

/-- A path that names the regular file `f` at `p`. -/
structure Target (d : Disk) (path : Text) (p : ℕ) (f : RdFile) : Prop where
  valid : validPath path = true
  found : getRdFile d path = some (some p)
  heap : d.heap p = some f
  regular : f.type = .regular

/-- The contents after a request that makes the file grow. -/
def grown (old buffer : List UInt8) (k : ℕ) : List UInt8 := (strncpy old old.length).take k ++ buffer

/-- The bytes `buffer` written at index `k` into an array: the contents after a
request that stays inside the file. -/
def splice (old buffer : List UInt8) (k : ℕ) : List UInt8 :=
  old.take k ++ buffer ++ old.drop (k + buffer.length)

section Spec

variable {d : Disk} {path : Text} {p : ℕ} {f : RdFile} {buffer : List UInt8}

theorem IsRegular.target (ht : Shape d) (h : IsRegular d path) (hp : ParentFound d path)
    (habs : ∃ s, path = '/' :: s) : ∃ p f, Target d path p f := by
  obtain ⟨q, g, name, hf⟩ := hp.found ht habs
  have hv := hf.validPath ht habs h
  obtain ⟨p, f, h1, h2, h3⟩ := h
  exact ⟨p, f, hv, h1, h2, h3⟩

/-- The data of a file that is not empty are its contents. -/
theorem Shape.data (ht : Shape d) (hp : d.heap p = some f) (hr : f.type = .regular) (hs : 0 < f.size) :
    f.data = some (contents f) := by
  obtain ⟨bs, h1, h2⟩ := ht.stored p f hp hr hs
  rw [contents, h1, ← h2]
  simp

theorem Shape.length_contents (ht : Shape d) (hp : d.heap p = some f) (hr : f.type = .regular) :
    (contents f).length = f.size := by
  by_cases hs : 0 < f.size
  · obtain ⟨bs, h1, h2⟩ := ht.stored p f hp hr hs
    simp [contents, h1, h2]
  · have h0 : f.size = 0 := by omega
    simp [contents, h0]

/-- For the sizes there are, no conversion changes a value. -/
theorem sizes_exact {s k n : ℕ} (hs : s ≤ maxCapacity) (hk : k ≤ s) (hn : n ≤ maxWrite) :
    toSize (k : ℤ) = k ∧ toInt (toSize ((k : ℤ) + n)) = (k + n : ℕ) ∧ toSize ((k + n : ℕ) : ℤ) = k + n ∧
      (s < k + n → toInt (toSize (((k + n : ℕ) : ℤ) - s)) = (k + n : ℕ) - (s : ℤ)) ∧
      toInt (n : ℤ) = n := by
  simp only [maxCapacity, maxWrite] at hs hn
  have h1 : ∀ m : ℕ, m < 2 ^ 32 → toSize (m : ℤ) = m := fun m hm => by
    have := toSize_eq_self (z := (m : ℤ)) (by omega) (by omega)
    exact_mod_cast this
  have h2 : ∀ m : ℕ, m < 2 ^ 31 → toInt (m : ℤ) = m := fun m hm => toInt_eq_self (by omega) (by omega)
  refine ⟨h1 k (by omega), ?_, h1 _ (by omega), fun hlt => ?_, h2 n (by omega)⟩
  · rw [← Nat.cast_add, h1 _ (by omega), h2 _ (by omega)]
  · rw [← Nat.cast_sub hlt.le, h1 _ (by omega), h2 _ (by omega)]

/-- A request that does not start inside the file is refused. -/
theorem rdWrite_beyond (h : Target d path p f) (hs : f.size ≤ maxCapacity) {offset : ℤ}
    (hlo : -2 ^ 63 ≤ offset) (hhi : offset < 2 ^ 63) (hout : offset < 0 ∨ (f.size : ℤ) < offset) :
    rdWrite d path buffer offset = some (d, .ofCode (-efbig)) := by
  have hlt : f.size < toSize offset := by
    unfold maxCapacity at hs
    rcases hout with hneg | hbig
    · have := toSize_of_neg hneg hlo
      omega
    · have := toSize_eq_self (z := offset) (by omega) (by omega)
      omega
  simp only [rdWrite, h.valid, h.found, h.heap, Option.bind_eq_bind, Option.bind_some, if_pos hlt, Bool.not_true,
    Bool.false_eq_true, if_false]

theorem grownData_eq (ht : Shape d) (hp : d.heap p = some f) (hr : f.type = .regular) {n : ℕ} (hn : f.size ≤ n) :
    grownData f n = some (strncpy (contents f) (contents f).length ++ List.replicate (n - f.size) 0) := by
  have hlen := ht.length_contents hp hr
  by_cases hs : f.size = 0
  · have hc : contents f = [] := List.length_eq_zero_iff.mp (hlen.trans hs)
    rw [grownData, if_pos hs, hc, hs]
    rfl
  · have hd := ht.data hp hr (by omega)
    rw [grownData, if_neg hs, hd, hlen]
    have hle : (contents f).length = f.size := hlen
    simp [guard, hle, hn]

/-- **What `rd_write` does** to a request that starts inside the file. -/
theorem rdWrite_eq (ht : Shape d) (h : Target d path p f) (hs : f.size ≤ maxCapacity) (hb : buffer.length ≤ maxWrite)
    {k : ℕ} (hk : k ≤ f.size) : rdWrite d path buffer k =
      if f.size < k + buffer.length then
        if d.maxBytes < d.currentBytes + (((k + buffer.length : ℕ) : ℤ) - f.size) then some (d, .ofCode (-enospc))
        else some ({ d.setFile p { f with data := some (grown (contents f) buffer k), size := k + buffer.length } with
            currentBytes := d.currentBytes + (((k + buffer.length : ℕ) : ℤ) - f.size) }, .ofCode buffer.length)
      else if buffer = [] then some (d, .ofCode buffer.length)
      else some (d.setFile p { f with data := some (splice (contents f) buffer k) }, .ofCode buffer.length) := by
  obtain ⟨e1, e2, e3, e4, e5⟩ := sizes_exact hs hk hb
  have hlen := ht.length_contents h.heap h.regular
  have hdata := ht.data h.heap h.regular
  simp only [rdWrite, h.valid, h.found, h.heap, Option.bind_eq_bind, Option.bind_some, e1, e2, e3, e5,
    if_neg (show ¬ f.size < k by omega), Bool.not_true, Bool.false_eq_true, if_false]
  by_cases hgrow : f.size < k + buffer.length
  · rw [if_pos hgrow, if_pos hgrow, e4 hgrow]
    have hnew : toSize (((k + buffer.length : ℕ) : ℤ) - f.size + f.size) = k + buffer.length := by
      rw [sub_add_cancel, e3]
    by_cases hroom : d.maxBytes < d.currentBytes + (((k + buffer.length : ℕ) : ℤ) - f.size)
    · rw [if_pos hroom, if_pos (by simpa [memoryAvailable] using hroom)]
    · rw [if_neg hroom, if_neg (by simpa [memoryAvailable] using hroom), hnew,
        grownData_eq ht h.heap h.regular hgrow.le]
      have hne : buffer ≠ [] := by
        rintro rfl
        simp only [List.length_nil] at hgrow
        omega
      have hfit : k + buffer.length ≤ (strncpy (contents f) (contents f).length ++
          List.replicate (k + buffer.length - f.size) 0).length := by
        simp only [List.length_append, length_strncpy, List.length_replicate]
        omega
      have hstored : storeAt (strncpy (contents f) (contents f).length ++
          List.replicate (k + buffer.length - f.size) 0) k buffer = some (grown (contents f) buffer k) := by
        rw [storeAt_of_le hfit, List.take_append_of_le_length (by simp; omega),
          List.drop_of_length_le (by simp; omega), List.append_nil]
        rfl
      simp only [Option.bind_some, storeBytes, if_neg hne, hstored, Option.bind_eq_bind]
  · rw [if_neg hgrow, if_neg hgrow]
    by_cases hne : buffer = []
    · have hsame : d.setFile p f = d := by
        rw [Disk.setFile, ← h.heap, Function.update_eq_self]
      simp [storeBytes, hne, hsame]
    · have hpos : 0 < buffer.length := List.length_pos_iff.mpr hne
      have hfit : k + buffer.length ≤ (contents f).length := by omega
      rw [if_neg hne]
      simp only [storeBytes, if_neg hne, hdata (by omega), Option.bind_eq_bind, Option.bind_some, storeAt_of_le hfit]
      rfl

/-- **What `rd_read` does**: a read inside the file is cut at its end. -/
theorem rdRead_eq (ht : Shape d) {size : ℕ} {offset : ℤ} (hv : validPath path = true)
    (hfound : getRdFile d path = some (some p)) (hp : d.heap p = some f) (hreg : f.type = .regular)
    (hs : f.size ≤ maxCapacity) (hsize : size < 2 ^ 63) (hlo : -2 ^ 63 ≤ offset) (hhi : offset < 2 ^ 63) :
    rdRead d path size offset =
      if 0 ≤ offset ∧ offset < f.size then
        some (d, { Reply.ofCode (toInt (min size (f.size - offset.toNat) : ℕ)) with
          bytes := ((contents f).drop offset.toNat).take (min size (f.size - offset.toNat)) ++ [0] })
      else some (d, .ofCode 0) := by
  have hlen := ht.length_contents hp hreg
  have hdir : ¬ f.type = .directory := by simp [hreg]
  unfold maxCapacity at hs
  simp only [rdRead, hv, hfound, hp, Option.bind_eq_bind, Option.bind_some, if_neg hdir, Bool.not_true,
    Bool.false_eq_true, if_false]
  by_cases hin : 0 ≤ offset ∧ offset < f.size
  · obtain ⟨k, rfl⟩ := Int.eq_ofNat_of_zero_le hin.1
    have hk : k < f.size := by exact_mod_cast hin.2
    have h1 : toSize (k : ℤ) = k := by
      have := toSize_eq_self (z := (k : ℤ)) (by omega) (by omega)
      exact_mod_cast this
    have h2 : toSize ((k : ℤ) + size) = k + size := by
      have := toSize_eq_self (z := (k : ℤ) + size) (by omega) (by omega)
      exact_mod_cast this
    have h3 : toSize ((f.size : ℤ) - k) = f.size - k := by
      have := toSize_eq_self (z := (f.size : ℤ) - k) (by omega) (by omega)
      omega
    have hn : (if f.size < k + size then f.size - k else size) = min size (f.size - k) := by
      split_ifs <;> omega
    have hfit : k + min size (f.size - k) ≤ (contents f).length := by omega
    rw [if_pos hin, h1, if_pos hk, ht.data hp hreg (by omega)]
    simp only [h2, h3, hn, Int.toNat_natCast, Option.bind_some, guard, if_pos hfit]
    rfl
  · have hout : ¬ toSize offset < f.size := by
      by_cases hneg : offset < 0
      · have := toSize_of_neg hneg hlo
        omega
      · have := toSize_eq_self (z := offset) (by omega) (by omega)
        omega
    rw [if_neg hin, if_neg hout]

end Spec

end Ramdisk
end Csc501

/-
# The space in use

`current_bytes` is counted by hand: `rd_write` adds the growth of a file,
`rd_mkdir` and `rd_rmdir` a constant, `rd_unlink` takes away the size. The
counter is right in every state the kernel can bring about: it is the sum over
the tree, never negative and never above the capacity, and `-ENOSPC` is
returned exactly when there is no room (`space_accounted`).

A second file of one name is counted like the first.

Key definitions: `bytesAt`, `Inv`, `Ledger`, `InTree`, `Accounted`.
Key theorems: `Change.ledger`, `Change.inv`, `inv_step`, `space_accounted`.
-/
import Csc501.Ramdisk.Change
import Mathlib.Algebra.BigOperators.Intervals
import Mathlib.Algebra.Order.BigOperators.Group.Finset

namespace Csc501
namespace Ramdisk

open Lib

/-! ### The sum over the tree -/

/-- What a file is counted with: its size, for a directory a constant. -/
def fileBytes (f : RdFile) : ℕ :=
  match f.type with
  | .regular => f.size
  | .directory => directoryBytes

/-- What is counted for the file at `p`; for the root nothing. -/
def bytesAt (d : Disk) (p : ℕ) : ℕ :=
  match d.heap p with
  | none => 0
  | some f => if p = root then 0 else fileBytes f

/-- The count over the heap. -/
def used (d : Disk) : ℕ := ∑ p ∈ Finset.range d.next, bytesAt d p

/-- The disk counts right, and has no more than its capacity. -/
structure Inv (d : Disk) : Prop where
  tree : Tree d
  counted : d.currentBytes = used d
  room : d.currentBytes ≤ d.maxBytes
  capacity : d.maxBytes ≤ maxCapacity

/-- The same of a heap in which there may be more than the tree. -/
structure Ledger (d : Disk) : Prop where
  shape : Shape d
  counted : d.currentBytes = used d
  room : d.currentBytes ≤ d.maxBytes
  capacity : d.maxBytes ≤ maxCapacity

theorem Inv.shape {d : Disk} (h : Inv d) : Shape d := h.tree.shape

theorem Inv.ledger {d : Disk} (h : Inv d) : Ledger d := ⟨h.shape, h.counted, h.room, h.capacity⟩

/-- A sum of which one term changes. -/
theorem sum_change {n p : ℕ} {b b' : ℕ → ℕ} (hp : p < n) (h : ∀ x, x ≠ p → b' x = b x) :
    (∑ x ∈ Finset.range n, b' x) + b p = (∑ x ∈ Finset.range n, b x) + b' p := by
  have hm := Finset.mem_range.mpr hp
  have hrest : ∑ x ∈ (Finset.range n).erase p, b' x = ∑ x ∈ (Finset.range n).erase p, b x := by
    apply Finset.sum_congr rfl
    intro x hx
    exact h x (Finset.ne_of_mem_erase hx)
  calc (∑ x ∈ Finset.range n, b' x) + b p
      = (b' p + ∑ x ∈ (Finset.range n).erase p, b' x) + b p := by rw [Finset.add_sum_erase _ b' hm]
    _ = (b p + ∑ x ∈ (Finset.range n).erase p, b x) + b' p := by
        rw [hrest]
        ring
    _ = (∑ x ∈ Finset.range n, b x) + b' p := by rw [Finset.add_sum_erase _ b hm]

section Account

variable {d d' : Disk} {p q : ℕ} {f g : RdFile}

theorem fileBytes_regular (hr : f.type = .regular) : fileBytes f = f.size := by
  simp [fileBytes, hr]

theorem fileBytes_directory (hd : f.type = .directory) : fileBytes f = directoryBytes := by
  simp [fileBytes, hd]

theorem bytesAt_some (hp : d.heap p = some f) (hne : p ≠ root) : bytesAt d p = fileBytes f := by
  simp [bytesAt, hp, hne]

theorem Shape.regular_ne_root (ht : Shape d) (hp : d.heap p = some f) (hr : f.type = .regular) :
    p ≠ Ramdisk.root := by
  rintro rfl
  obtain ⟨r, hroot, hdir⟩ := ht.root
  rw [hp] at hroot
  obtain rfl := Option.some.inj hroot
  rw [hr] at hdir
  exact absurd hdir (by simp)

/-- A file is no larger than the disk. -/
theorem Ledger.bounded (h : Ledger d) : Bounded d := by
  intro p f hp hr
  have hle : bytesAt d p ≤ used d := by
    unfold used
    apply Finset.single_le_sum (f := bytesAt d) fun _ _ => Nat.zero_le _
    exact Finset.mem_range.mpr (h.shape.lt_next hp)
  have hb : bytesAt d p = f.size := by
    rw [bytesAt_some hp (h.shape.regular_ne_root hp hr), fileBytes_regular hr]
  have h1 := h.counted
  have h2 := h.room
  have h3 := h.capacity
  omega

theorem Inv.bounded (h : Inv d) : Bounded d := h.ledger.bounded

theorem used_addFile {name path : Text} {type : FileType} (ht : Shape d) (hq : d.heap q = some g) :
    used (addFile d q g (createRdFile name path type)) = used d + (createRdFile name path type).size := by
  have hqn := ht.lt_next hq
  have hpos : d.next ≠ root := by
    obtain ⟨r, hr, -⟩ := ht.root
    exact (ht.lt_next hr).ne'
  have hold : ∀ x ∈ Finset.range d.next, bytesAt (addFile d q g (createRdFile name path type)) x = bytesAt d x := by
    intro x hx
    have hlt := Finset.mem_range.mp hx
    unfold bytesAt
    rw [addFile_heap]
    by_cases hxq : x = q
    · subst hxq
      rw [if_pos rfl, hq]
      rfl
    · rw [if_neg hxq, if_neg hlt.ne]
  have hnew : bytesAt (addFile d q g (createRdFile name path type)) d.next = (createRdFile name path type).size := by
    have hheap : (addFile d q g (createRdFile name path type)).heap d.next =
        some { createRdFile name path type with parent := some q } := by
      rw [addFile_heap, if_neg hqn.ne', if_pos rfl]
    rw [bytesAt_some hheap hpos]
    cases type <;> rfl
  show ∑ x ∈ Finset.range (d.next + 1), _ = _
  rw [Finset.sum_range_succ, Finset.sum_congr rfl hold, hnew]
  rfl

theorem used_removeFile (ht : Shape d) (hq : d.heap q = some g) (hm : p ∈ g.files) :
    used (removeFile d q g p) + bytesAt d p = used d := by
  obtain ⟨f, hp, -, hlt⟩ := ht.down q g p hq hm
  have hother : ∀ x, x ≠ p → bytesAt (removeFile d q g p) x = bytesAt d x := by
    intro x hx
    unfold bytesAt
    rw [removeFile_heap, if_neg hx]
    by_cases hxq : x = q
    · subst hxq
      rw [if_pos rfl, hq]
      rfl
    · rw [if_neg hxq]
  have hgone : bytesAt (removeFile d q g p) p = 0 := by
    unfold bytesAt
    rw [removeFile_heap, if_pos rfl]
  have hsum := sum_change (ht.lt_next hp) hother
  rw [hgone] at hsum
  exact hsum

theorem used_setFile (f' : RdFile) (ht : Shape d) (hp : d.heap p = some f) :
    used (d.setFile p f') + bytesAt d p = used d + bytesAt (d.setFile p f') p := by
  apply sum_change (ht.lt_next hp)
  intro x hx
  unfold bytesAt
  rw [setFile_heap, if_neg hx]

/-- Every change is counted. -/
theorem Change.ledger {op : Op} (h : Change d op d') (hi : Ledger d) : Ledger d' := by
  have hmax := h.maxBytes
  have hshape := h.shape hi.shape
  have ht := hi.shape
  have hc := hi.counted
  have hr := hi.room
  have hcap := hmax ▸ hi.capacity
  cases h with
  | same => exact hi
  | @mark p f hp =>
    refine ⟨hshape, ?_, hr, hcap⟩
    have hu := used_setFile { f with opened := true } ht hp
    have hsame : bytesAt (d.setFile p { f with opened := true }) p = bytesAt d p := by
      unfold bytesAt
      rw [setFile_heap, if_pos rfl, hp]
      rfl
    rw [hsame] at hu
    rw [Nat.add_right_cancel hu]
    exact hc
  | create _ hq hdir hname =>
    refine ⟨hshape, ?_, hr, hcap⟩
    rw [used_addFile ht hq]
    exact hc
  | mkdir _ hq hdir hroom =>
    refine ⟨hshape, ?_, hroom, hcap⟩
    show d.currentBytes + directoryBytes = (used (addFile _ _ _ _) : ℤ)
    rw [used_addFile ht hq, hc]
    push_cast
    rfl
  | @unlink p q f g _ hq hm hp hreg =>
    have hu := used_removeFile ht hq hm
    rw [bytesAt_some hp (ht.regular_ne_root hp hreg), fileBytes_regular hreg] at hu
    refine ⟨hshape, ?_, ?_, hcap⟩
    · show d.currentBytes - f.size = (used (removeFile d q g p) : ℤ)
      omega
    · show d.currentBytes - f.size ≤ d.maxBytes
      omega
  | @rmdir p q f g _ hq hm hp hdir hempty =>
    have hu := used_removeFile ht hq hm
    rw [bytesAt_some hp (ht.child_ne_root hq hm), fileBytes_directory hdir] at hu
    refine ⟨hshape, ?_, ?_, hcap⟩
    · show d.currentBytes - directoryBytes = (used (removeFile d q g p) : ℤ)
      omega
    · show d.currentBytes - directoryBytes ≤ d.maxBytes
      omega
  | @write p n f bs _ hp hreg hlen hgrow hroom =>
    have hne := ht.regular_ne_root hp hreg
    have hu := used_setFile { f with data := some bs, size := n } ht hp
    have hheap : (d.setFile p { f with data := some bs, size := n }).heap p =
        some { f with data := some bs, size := n } := by
      rw [setFile_heap, if_pos rfl]
    have hnew : bytesAt (d.setFile p { f with data := some bs, size := n }) p = n :=
      (bytesAt_some hheap hne).trans (fileBytes_regular hreg)
    rw [hnew, bytesAt_some hp hne, fileBytes_regular hreg] at hu
    refine ⟨hshape, ?_, ?_, hcap⟩
    · show d.currentBytes + ((n : ℤ) - f.size) = (used (d.setFile p _) : ℤ)
      omega
    · show d.currentBytes + ((n : ℤ) - f.size) ≤ d.maxBytes
      by_cases hlt : f.size < n
      · exact hroom hlt
      · omega

theorem Change.inv {op : Op} (h : Change d op d') (hi : Inv d) : Inv d' := by
  obtain ⟨-, hc, hr, hcap⟩ := h.ledger hi.ledger
  exact ⟨h.tree hi.tree, hc, hr, hcap⟩

theorem inv_start {m : ℤ} (hm : Capacity m) (stale : ℕ → Bool) : Inv (Disk.start m stale) := by
  refine ⟨tree_start m stale, ?_, hm.nonneg, hm.le⟩
  show (0 : ℤ) = ((∑ p ∈ Finset.range 1, bytesAt (Disk.start m stale) p : ℕ) : ℤ)
  rw [Finset.sum_range_one]
  rfl

theorem inv_step {m : ℤ} {e : Op × Reply} (hi : Inv d) (hst : (disk m).step d e d') : Inv d' := by
  obtain ⟨hv, hex⟩ := hst
  exact (exec_change hi.shape hi.bounded hv hex).inv hi

/-- The invariant holds whatever the kernel calls. -/
theorem inv_reachable {m : ℤ} (hm : Capacity m) (hd : (disk m).Reachable d) : Inv d := by
  refine Lts.reachable_invariant (I := Inv) (fun s hs => ?_) (fun s e s' _ hi hst => inv_step hi hst) hd
  obtain ⟨stale, rfl⟩ : ∃ stale, s = Disk.start m stale := hs
  exact inv_start hm stale

end Account

/-! ### Over the tree -/

/-- The files one gets to from `root`. -/
inductive InTree (d : Disk) : ℕ → Prop
  | root : InTree d root
  | file {q p : ℕ} {g : RdFile} : InTree d q → d.heap q = some g → p ∈ g.files → InTree d p

def typeAt (d : Disk) (p : ℕ) : Option FileType := (d.heap p).map RdFile.type
def sizeAt (d : Disk) (p : ℕ) : ℕ := ((d.heap p).map RdFile.size).getD 0

/-- `current_bytes` is the sum of the sizes of the regular files in the tree,
and a constant for every directory but the root. -/
def Counted (d : Disk) : Prop :=
  ∃ files dirs : Finset ℕ, (∀ p, p ∈ files ↔ InTree d p ∧ typeAt d p = some .regular) ∧
    (∀ p, p ∈ dirs ↔ InTree d p ∧ p ≠ root ∧ typeAt d p = some .directory) ∧
    d.currentBytes = (∑ p ∈ files, sizeAt d p) + directoryBytes * dirs.card

/-- The integers `rd_write` computes for `n` bytes at offset `k` of a file of
size `s` are those sums and differences: the two `size_t`s compared, the `int`s
`size_after_write` and `bytes_to_allocate`, the new size and the result. -/
structure Unwrapped (d : Disk) (s k n : ℕ) : Prop where
  offset : toSize (k : ℤ) = k
  after : toInt (toSize ((k : ℤ) + n)) = (k + n : ℕ)
  compared : toSize ((k + n : ℕ) : ℤ) = k + n
  allocate : s < k + n → toInt (toSize (((k + n : ℕ) : ℤ) - s)) = (k + n : ℕ) - (s : ℤ)
  newSize : s < k + n → toSize (((k + n : ℕ) : ℤ) - s + s) = k + n
  total : d.currentBytes + (k + n - s : ℕ) < 2 ^ 31
  result : toInt (n : ℤ) = n

/-- What is to hold of the counter in a state of the disk. -/
structure Accounted (d : Disk) : Prop where
  counted : Counted d
  nonneg : 0 ≤ d.currentBytes
  room : d.currentBytes ≤ d.maxBytes
  write : ∀ path p f buffer, ∀ k : ℕ, Vfs d (.write path buffer k) → Target d path p f → k ≤ f.size →
    Unwrapped d f.size k buffer.length ∧ ∃ d' r, rdWrite d path buffer k = some (d', r) ∧
      (r.code = -enospc ↔ d.maxBytes - d.currentBytes < (k + buffer.length - f.size : ℕ))
  mkdir : ∀ path, Vfs d (.mkdir path) → path ≠ rootName →
    d.currentBytes + directoryBytes < 2 ^ 31 ∧ ∃ d' r, rdMkdir d path = some (d', r) ∧
      (r.code = -enospc ↔ d.maxBytes - d.currentBytes < directoryBytes)

section Accounting

variable {d : Disk} {m : ℤ}

/-- What is allocated is in the tree: a parent is always older. -/
theorem Tree.inTree (ht : Tree d) : ∀ p f, d.heap p = some f → InTree d p := by
  intro p
  induction p using Nat.strong_induction_on with
  | _ p ih =>
    intro f hp
    by_cases hr : p = Ramdisk.root
    · rw [hr]
      exact .root
    · obtain ⟨q, g, -, hq, hm⟩ := ht.up p f hp hr
      obtain ⟨-, -, -, hlt⟩ := ht.down q g p hq hm
      exact (ih q hlt g hq).file hq hm

theorem inTree_of_typeAt (ht : Tree d) {p : ℕ} {t : FileType} (h : typeAt d p = some t) :
    InTree d p ∧ p ∈ Finset.range d.next := by
  obtain ⟨f, hp, -⟩ := Option.map_eq_some_iff.mp h
  exact ⟨ht.inTree p f hp, Finset.mem_range.mpr (ht.shape.lt_next hp)⟩

/-- A file is counted once, as a regular file or as a directory. -/
theorem bytesAt_eq (ht : Shape d) (p : ℕ) : bytesAt d p =
    (if typeAt d p = some .regular then sizeAt d p else 0) +
      if p ≠ root ∧ typeAt d p = some .directory then directoryBytes else 0 := by
  cases hp : d.heap p with
  | none => simp [bytesAt, typeAt, hp]
  | some f =>
    cases hf : f.type with
    | regular =>
      rw [bytesAt_some hp (ht.regular_ne_root hp hf), fileBytes_regular hf]
      simp [typeAt, sizeAt, hp, hf]
    | directory =>
      by_cases hr : p = root
      · subst hr
        simp [bytesAt, typeAt, hp, hf]
      · rw [bytesAt_some hp hr, fileBytes_directory hf]
        simp [typeAt, hp, hf, hr]

theorem Inv.counted_tree (h : Inv d) : Counted d := by
  refine ⟨(Finset.range d.next).filter fun p => typeAt d p = some .regular,
    (Finset.range d.next).filter fun p => p ≠ root ∧ typeAt d p = some .directory, fun p => ?_, fun p => ?_, ?_⟩
  · rw [Finset.mem_filter]
    exact ⟨fun hp => ⟨(inTree_of_typeAt h.tree hp.2).1, hp.2⟩, fun hp => ⟨(inTree_of_typeAt h.tree hp.2).2, hp.2⟩⟩
  · rw [Finset.mem_filter]
    exact ⟨fun hp => ⟨(inTree_of_typeAt h.tree hp.2.2).1, hp.2⟩,
      fun hp => ⟨(inTree_of_typeAt h.tree hp.2.2).2, hp.2⟩⟩
  · rw [h.counted, used, Finset.sum_congr rfl fun p _ => bytesAt_eq h.shape p, Finset.sum_add_distrib,
      ← Finset.sum_filter, ← Finset.sum_filter, Finset.sum_const, nsmul_eq_mul]
    push_cast
    ring

theorem Inv.write_enospc (h : Inv d) {path : Text} {p : ℕ} {f : RdFile} {buffer : List UInt8} {k : ℕ}
    (ht : Target d path p f) (hlen : buffer.length ≤ maxWrite) (hk : k ≤ f.size) :
    ∃ d' r, rdWrite d path buffer k = some (d', r) ∧
      (r.code = -enospc ↔ d.maxBytes - d.currentBytes < (k + buffer.length - f.size : ℕ)) := by
  have hroom := h.room
  have hsent : (buffer.length : ℤ) ≠ -enospc := by
    unfold enospc
    omega
  rw [rdWrite_eq h.shape ht (h.bounded p f ht.heap ht.regular) hlen hk]
  split_ifs with h1 h2 h3
  · exact ⟨_, _, rfl, fun _ => by omega, fun _ => rfl⟩
  · exact ⟨_, _, rfl, fun hc => absurd hc hsent, fun hlt => by omega⟩
  · exact ⟨_, _, rfl, fun hc => absurd hc hsent, fun hlt => by omega⟩
  · exact ⟨_, _, rfl, fun hc => absurd hc hsent, fun hlt => by omega⟩

theorem Inv.mkdir_enospc (h : Inv d) {path : Text} {q : ℕ} {g : RdFile} {name : Text} (hf : Found d path q g name)
    (hne : path ≠ rootName) : ∃ d' r, rdMkdir d path = some (d', r) ∧
      (r.code = -enospc ↔ d.maxBytes - d.currentBytes < directoryBytes) := by
  rw [hf.rdMkdir, if_neg hne]
  by_cases hav : memoryAvailable d directoryBytes = true
  · have hroom : d.currentBytes + directoryBytes ≤ d.maxBytes := by simpa [memoryAvailable] using hav
    rw [if_neg (by simp [hav])]
    rcases getFile_cases name (h.shape.live hf.heap) with ⟨hg, -⟩ | ⟨p, f, hg, -⟩
    · rw [hg]
      exact ⟨_, _, rfl, fun hc => absurd hc (by decide), fun hlt => by omega⟩
    · rw [hg]
      exact ⟨_, _, rfl, fun hc => absurd hc (by decide), fun hlt => by omega⟩
  · rw [if_pos (by simp [hav])]
    have hfull : ¬ d.currentBytes + directoryBytes ≤ d.maxBytes := by simpa [memoryAvailable] using hav
    exact ⟨_, _, rfl, fun _ => by omega, fun _ => rfl⟩

/-- What is asked for is added without overflow. -/
theorem Inv.total_lt (h : Inv d) {n : ℕ} (hn : n ≤ maxWrite) : d.currentBytes + n < 2 ^ 31 := by
  have hle : d.currentBytes ≤ (maxCapacity : ℤ) := h.room.trans h.capacity
  have hsum : (maxCapacity : ℤ) + maxWrite < 2 ^ 31 := by decide
  omega

/-- **The space is accounted for** in every state the kernel can bring about. -/
theorem space_accounted (hm : Capacity m) (hd : (disk m).Reachable d) : d.maxBytes = m ∧ Accounted d := by
  have hi := inv_reachable hm hd
  have hmax : d.maxBytes = m := by
    refine Lts.reachable_invariant (I := fun d => d.maxBytes = m) (fun s hs => ?_) (fun s e s' hr h hst => ?_) hd
    · obtain ⟨stale, rfl⟩ : ∃ stale, s = Disk.start m stale := hs
      rfl
    · have hi := inv_reachable hm hr
      exact (exec_change hi.shape hi.bounded hst.1 hst.2).maxBytes.trans h
  have hc := hi.counted
  refine ⟨hmax, hi.counted_tree, by omega, hi.room, fun path p f buffer k hv ht hk => ?_, fun path hv hne => ?_⟩
  · have hgrow : k + buffer.length - f.size ≤ buffer.length := by omega
    obtain ⟨-, hlen, -⟩ := hv.write path buffer k rfl
    obtain ⟨e1, e2, e3, e4, e5⟩ := sizes_exact (hi.bounded p f ht.heap ht.regular) hk hlen
    exact ⟨⟨e1, e2, e3, e4, fun _ => by rw [sub_add_cancel, e3], hi.total_lt (hgrow.trans hlen), e5⟩,
      hi.write_enospc ht hlen hk⟩
  · obtain ⟨q, g, name, hf⟩ := hv.found hi.shape
    exact ⟨hi.total_lt (by decide), hi.mkdir_enospc hf hne⟩

end Accounting

theorem megabyte : Capacity (2 ^ 20) := ⟨by decide, by decide, dvd_rfl⟩

/-- A disk of 1 MB with the directory `/a`. -/
def oneDirectory (stale : ℕ → Bool) : Disk :=
  { addFile (Disk.start (2 ^ 20) stale) root (createRdFile rootName [] .directory)
      (createRdFile "a".toList rootName .directory) with currentBytes := directoryBytes }

theorem vfs_oneDirectory (stale : ℕ → Bool) : Vfs (Disk.start (2 ^ 20) stale) (.mkdir "/a".toList) :=
  ⟨⟨_, rfl⟩, ⟨_, _, root, rfl, rfl⟩, nofun, nofun, nofun⟩

theorem space_accounted_oneDirectory : Capacity (2 ^ 20) ∧ (disk (2 ^ 20)).Reachable (oneDirectory zeroed) ∧
    (oneDirectory zeroed).currentBytes = 4096 ∧ Accounted (oneDirectory zeroed) := by
  have hd : (disk (2 ^ 20)).Reachable (oneDirectory zeroed) :=
    ⟨_, _, ⟨_, rfl⟩, .single (a := (.mkdir "/a".toList, .ofCode 0)) ⟨vfs_oneDirectory zeroed, rfl⟩⟩
  exact ⟨megabyte, hd, rfl, (space_accounted megabyte hd).2⟩

end Ramdisk
end Csc501

/-
# What a callback can do

Every callback answers, unless it frees a pointer that was never set
(`exec_returns`), and what it does to the disk is one of the changes of
`Change` (`exec_change`), each of which leaves a tree (`Change.tree`) and, if it
was none before, what there was of one (`Change.shape`). This is
said once here; what is kept along a run is then a matter of seven cases.

The names in a directory need not be different: `rd_create` of a name that is
there makes a second file of that name.

Key definitions: `Change`, `Bounded`, `FreesKnown`.
Key theorems: `Change.shape`, `Change.tree`, `exec_change`, `exec_returns`.
-/
import Csc501.Ramdisk.Write

namespace Csc501
namespace Ramdisk

open Lib

/-- What can happen to the disk in one callback. -/
inductive Change (d : Disk) (op : Op) : Disk → Prop
  | same : Change d op d
  | mark {p : ℕ} {f : RdFile} (hp : d.heap p = some f) : Change d op (d.setFile p { f with opened := true })
  | create {q : ℕ} {g : RdFile} {name : Text} (hop : op.Renames) (hq : d.heap q = some g) (hdir : g.type = .directory)
      (hname : name ≠ []) : Change d op (addFile d q g (createRdFile name g.name .regular))
  | mkdir {q : ℕ} {g : RdFile} {name : Text} (hop : op.Renames) (hq : d.heap q = some g) (hdir : g.type = .directory)
      (hroom : d.currentBytes + directoryBytes ≤ d.maxBytes) :
      Change d op { addFile d q g (createRdFile name g.name .directory) with
        currentBytes := d.currentBytes + directoryBytes }
  | unlink {p q : ℕ} {f g : RdFile} (hop : op.Renames) (hq : d.heap q = some g) (hm : p ∈ g.files)
      (hp : d.heap p = some f) (hreg : f.type = .regular) :
      Change d op { removeFile d q g p with currentBytes := d.currentBytes - f.size }
  | rmdir {p q : ℕ} {f g : RdFile} (hop : op.Renames) (hq : d.heap q = some g) (hm : p ∈ g.files)
      (hp : d.heap p = some f) (hdir : f.type = .directory) (hempty : f.files = []) :
      Change d op { removeFile d q g p with currentBytes := d.currentBytes - directoryBytes }
  | write {p n : ℕ} {f : RdFile} {bs : List UInt8} (hop : ∃ path buffer offset, op = .write path buffer offset)
      (hp : d.heap p = some f) (hreg : f.type = .regular) (hlen : bs.length = n) (hgrow : f.size ≤ n)
      (hroom : f.size < n → d.currentBytes + ((n : ℤ) - f.size) ≤ d.maxBytes) :
      Change d op { d.setFile p { f with data := some bs, size := n } with
        currentBytes := d.currentBytes + ((n : ℤ) - f.size) }

theorem Change.shape {d d' : Disk} {op : Op} (h : Change d op d') (hs : Shape d) : Shape d' := by
  cases h with
  | same => exact hs
  | @mark p f hp =>
    have hst := hs.stored p f hp
    exact hs.setFile hp rfl rfl rfl rfl hst
  | create _ hq hdir hname => exact hs.addFile hq hdir fun _ => hname
  | mkdir _ hq hdir _ =>
    exact (hs.addFile hq hdir fun hr => absurd hr (by simp)).congr rfl rfl
  | unlink _ hq hm hp hreg => exact (hs.removeFile hq hm).congr rfl rfl
  | rmdir _ hq hm hp _ hempty => exact (hs.removeFile hq hm).congr rfl rfl
  | @write p n f bs _ hp hreg hlen _ _ =>
    have hset : Shape (d.setFile p { f with data := some bs, size := n }) :=
      hs.setFile hp rfl rfl rfl rfl fun _ _ => ⟨bs, rfl, hlen⟩
    exact hset.congr rfl rfl

theorem Change.tree {d d' : Disk} {op : Op} (h : Change d op d') (ht : Tree d) : Tree d' := by
  cases h with
  | same => exact ht
  | @mark p f hp =>
    have hst := ht.stored p f hp
    exact ht.setFile hp rfl rfl rfl rfl hst
  | create _ hq hdir hname => exact ht.addFile hq hdir fun _ => hname
  | mkdir _ hq hdir _ =>
    exact (ht.addFile hq hdir fun hr => absurd hr (by simp)).congr rfl rfl
  | unlink _ hq hm hp hreg => exact (ht.removeFile hq hm hp (ht.leaf _ _ hp hreg)).congr rfl rfl
  | rmdir _ hq hm hp _ hempty => exact (ht.removeFile hq hm hp hempty).congr rfl rfl
  | @write p n f bs _ hp hreg hlen _ _ =>
    have hset : Tree (d.setFile p { f with data := some bs, size := n }) :=
      ht.setFile hp rfl rfl rfl rfl fun _ _ => ⟨bs, rfl, hlen⟩
    exact hset.congr rfl rfl

theorem Change.maxBytes {d d' : Disk} {op : Op} (h : Change d op d') : d'.maxBytes = d.maxBytes := by
  cases h <;> rfl

section Exec

variable {d d' : Disk} {path name : Text} {p q : ℕ} {f g : RdFile} {r : Reply}

/-! ### The callbacks, with the parent found -/

theorem Found.rdCreate (h : Found d path q g name) : rdCreate d path =
    if path = rootName || endsWith path rootName then some (d, .ofCode (-eperm))
    else some (addFile d q g (createRdFile name g.name .regular), .ofCode 0) := by
  obtain ⟨names, count, h1, h2, h3⟩ := h.dirs
  simp only [Ramdisk.rdCreate, h1, h2, h3, h.heap, Option.bind_eq_bind, Option.bind_some]

theorem Found.rdMkdir (h : Found d path q g name) : rdMkdir d path =
    if path = rootName then some (d, .ofCode (-enotdir))
    else if !memoryAvailable d directoryBytes then some (d, .ofCode (-enospc))
    else (getFile d name g.files).bind fun found => match found with
      | some _ => some (d, .ofCode (-eexist))
      | none => some ({ addFile d q g (createRdFile name g.name .directory) with
          currentBytes := d.currentBytes + directoryBytes }, .ofCode 0) := by
  obtain ⟨names, count, h1, h2, h3⟩ := h.dirs
  simp only [Ramdisk.rdMkdir, h1, h2, h3, h.heap, Option.bind_eq_bind, Option.bind_some]
  rfl

theorem Found.rdUnlink (h : Found d path q g name) : rdUnlink d path =
    if path = rootName then some (d, .ofCode (-eperm))
    else (getFile d name g.files).bind fun found => match found with
      | none => some (d, .ofCode (-eperm))
      | some p => (d.heap p).bind fun f =>
          (deleteItem { d with currentBytes := d.currentBytes - f.size } q p).bind fun d' => some (d', .ofCode 0) := by
  obtain ⟨names, count, h1, h2, h3⟩ := h.dirs
  rcases hg : getFile d name g.files with _ | _ | p
  all_goals simp only [Ramdisk.rdUnlink, h1, h2, h3, h.heap, hg, Option.bind_eq_bind, Option.bind_some, Option.bind_none]

theorem Found.rdGetattr (h : Found d path q g name) : rdGetattr d path =
    if path = rootName then (d.heap root).bind fun r =>
      some (d, { Reply.ofCode 0 with stat := some (fillStats r) })
    else (getFile d name g.files).bind fun found => match found with
      | none => some (d, .ofCode (-enoent))
      | some p => (d.heap p).bind fun f => some (d, { Reply.ofCode 0 with stat := some (fillStats f) }) := by
  obtain ⟨names, count, h1, h2, h3⟩ := h.dirs
  rcases hg : getFile d name g.files with _ | _ | p
  all_goals simp only [Ramdisk.rdGetattr, h1, h2, h3, h.heap, hg, Option.bind_eq_bind, Option.bind_some, Option.bind_none]

theorem Found.rdReaddir (h : Found d path q g name) : rdReaddir d path =
    (if path = rootName then some (some root) else getFile d name g.files).bind fun found => match found with
      | none => some (d, .ofCode (-enoent))
      | some p => (d.heap p).bind fun f =>
          if f.type = .regular then some (d, .ofCode (-enoent))
          else (fillEntries d f.files).bind fun entries =>
            some (d, { Reply.ofCode 0 with entries := entries }) := by
  obtain ⟨names, count, h1, h2, h3⟩ := h.dirs
  simp only [Ramdisk.rdReaddir, h1, h2, h3, h.heap, Option.bind_eq_bind, Option.bind_some]
  split_ifs <;> rfl

/-- No file is too large for the integers of `rd_write`. -/
def Bounded (d : Disk) : Prop := ∀ p f, d.heap p = some f → f.type = .regular → f.size ≤ maxCapacity

theorem mkdir_change (ht : Shape d) (h : Found d path q g name) :
    ∃ d' r, Ramdisk.rdMkdir d path = some (d', r) ∧ Change d (.mkdir path) d' := by
  rw [h.rdMkdir]
  split_ifs with h1 h2
  · exact ⟨d, _, rfl, .same⟩
  · exact ⟨d, _, rfl, .same⟩
  · have hroom : d.currentBytes + directoryBytes ≤ d.maxBytes := by simpa [memoryAvailable] using h2
    rcases getFile_cases name (ht.live h.heap) with ⟨hg, -⟩ | ⟨p, f, hg, -⟩
    · rw [hg]
      exact ⟨_, _, rfl, .mkdir trivial h.heap h.dir hroom⟩
    · rw [hg]
      exact ⟨d, _, rfl, .same⟩

theorem create_change (h : Found d path q g name) (habs : ∃ p, path = '/' :: p) :
    ∃ d' r, Ramdisk.rdCreate d path = some (d', r) ∧ Change d (.create path) d' := by
  rw [h.rdCreate]
  split_ifs with h1
  · exact ⟨d, _, rfl, .same⟩
  · exact ⟨_, _, rfl, .create trivial h.heap h.dir fun hnil => h1 (by simpa using h.slash_of_nil hnil habs)⟩

/-- `rd_unlink` of a file that is there: it is freed. -/
theorem Found.unlink_eq (ht : Shape d) (h : Found d path q g name) (hne : path ≠ rootName)
    (hg : getFile d name g.files = some (some p)) (hp : d.heap p = some f) :
    Ramdisk.rdUnlink d path = if Disposable d p f then
      some ({ removeFile d q g p with currentBytes := d.currentBytes - f.size }, .ofCode 0) else none := by
  have hdel : deleteItem { d with currentBytes := d.currentBytes - f.size } q p =
      if Disposable d p f then _ else none := deleteItem_of_mem (ht.congr rfl rfl) h.heap (mem_of_getFile hg) hp
  rw [h.rdUnlink, if_neg hne, hg]
  simp only [Option.bind_some, hp, hdel]
  split_ifs <;> rfl

/-- `rd_rmdir` of an empty directory: it is freed. -/
theorem Found.rmdir_eq (ht : Shape d) (h : Found d path q g name) (hne : path ≠ rootName)
    (hg : getFile d name g.files = some (some p)) (hp : d.heap p = some f)
    (hdir : f.type = .directory) (hempty : f.files = []) :
    rdRmdir d path = if Disposable d p f then
      some ({ removeFile d q g p with currentBytes := d.currentBytes - directoryBytes }, .ofCode 0) else none := by
  -- its own parent is the one on the path
  have hm := mem_of_getFile hg
  obtain ⟨f', hf', hpar, -⟩ := ht.down q g p h.heap hm
  rw [hp] at hf'
  obtain rfl := Option.some.inj hf'
  unfold rdRmdir
  rw [if_neg hne, h.getRdFile, hg]
  simp only [Option.bind_eq_bind, Option.bind_some, hp, hdir, hempty, hpar, deleteItem_of_mem ht h.heap hm hp, ne_eq,
    not_true_eq_false, if_false]
  split_ifs <;> rfl

/-- `rd_rmdir` of anything else changes nothing. -/
theorem Found.rmdir_refused (ht : Shape d) (h : Found d path q g name)
    (hno : ∀ p f, path ≠ rootName → getFile d name g.files = some (some p) → d.heap p = some f →
      f.type = .directory → f.files ≠ []) : ∃ r, rdRmdir d path = some (d, r) := by
  unfold rdRmdir
  rw [h.getRdFile]
  split_ifs with hroot
  · exact ⟨_, rfl⟩
  · rcases getFile_cases name (ht.live h.heap) with ⟨hg, -⟩ | ⟨p, f, hg, hm, hp, -⟩
    · rw [hg]
      exact ⟨_, rfl⟩
    · rw [hg]
      simp only [Option.bind_eq_bind, Option.bind_some, hp]
      split_ifs with h1 h2
      · exact ⟨_, rfl⟩
      · exact ⟨_, rfl⟩
      · exact absurd (not_not.mp h2) (hno p f hroot hg hp (not_not.mp h1))

/-- If the call removes a file, what it frees as the data of the file is a buffer or
`NULL`. -/
def FreesKnown (d : Disk) : Op → Prop
  | .unlink path => ∀ p f, path ≠ rootName → getRdFile d path = some (some p) → d.heap p = some f → Disposable d p f
  | .rmdir path => ∀ p f, path ≠ rootName → getRdFile d path = some (some p) → d.heap p = some f →
    f.type = .directory → f.files = [] → Disposable d p f
  | _ => True

/-- **`rd_unlink` returns** exactly if it may free the data of the file. -/
theorem unlink_returns (ht : Shape d) (h : Found d path q g name) :
    (∃ d' r, Ramdisk.rdUnlink d path = some (d', r)) ↔ FreesKnown d (.unlink path) := by
  simp only [FreesKnown, h.getRdFile]
  by_cases hroot : path = rootName
  · rw [h.rdUnlink, if_pos hroot]
    exact iff_of_true ⟨_, _, rfl⟩ fun _ _ hne => absurd hroot hne
  · rcases getFile_cases name (ht.live h.heap) with ⟨hg, -⟩ | ⟨p, f, hg, hm, hp, -⟩
    · rw [h.rdUnlink, if_neg hroot, hg]
      exact iff_of_true ⟨_, _, rfl⟩ fun _ _ _ h => absurd h (by simp)
    · rw [h.unlink_eq ht hroot hg hp, hg]
      split_ifs with hk
      · refine iff_of_true ⟨_, _, rfl⟩ fun p' f' _ hp' hf' => ?_
        obtain rfl : p = p' := by simpa using hp'
        obtain rfl := Option.some.inj (hp.symm.trans hf')
        exact hk
      · exact iff_of_false (by simp) fun hall => hk (hall p f hroot rfl hp)

/-- **`rd_rmdir` returns** exactly if it may free the data of the directory. -/
theorem rmdir_returns (ht : Shape d) (h : Found d path q g name) :
    (∃ d' r, rdRmdir d path = some (d', r)) ↔ FreesKnown d (.rmdir path) := by
  simp only [FreesKnown, h.getRdFile]
  by_cases hrm : ∃ p f, path ≠ rootName ∧ getFile d name g.files = some (some p) ∧ d.heap p = some f ∧
      f.type = .directory ∧ f.files = []
  · obtain ⟨p, f, hne, hg, hp, hdir, hempty⟩ := hrm
    rw [h.rmdir_eq ht hne hg hp hdir hempty, hg]
    split_ifs with hk
    · refine iff_of_true ⟨_, _, rfl⟩ fun p' f' _ hp' hf' _ _ => ?_
      obtain rfl : p = p' := by simpa using hp'
      obtain rfl := Option.some.inj (hp.symm.trans hf')
      exact hk
    · exact iff_of_false (by simp) fun hall => hk (hall p f hne rfl hp hdir hempty)
  · push Not at hrm
    obtain ⟨r, hr⟩ := h.rmdir_refused ht hrm
    exact iff_of_true ⟨d, r, hr⟩ fun p f hne hg hp hdir hempty => absurd hempty (hrm p f hne hg hp hdir)

theorem unlink_change (ht : Shape d) (h : Found d path q g name) (hr : IsRegular d path)
    (hex : Ramdisk.rdUnlink d path = some (d', r)) : Change d (.unlink path) d' := by
  obtain ⟨p, f, hp, hf, hreg⟩ := hr
  rw [h.getRdFile] at hp
  by_cases hroot : path = rootName
  · rw [h.rdUnlink, if_pos hroot] at hex
    obtain ⟨rfl, -⟩ := Prod.mk.inj (Option.some.inj hex)
    exact .same
  · rw [h.unlink_eq ht hroot hp hf] at hex
    split_ifs at hex
    obtain ⟨rfl, -⟩ := Prod.mk.inj (Option.some.inj hex)
    exact .unlink trivial h.heap (mem_of_getFile hp) hf hreg

theorem rmdir_change (ht : Shape d) (h : Found d path q g name) (hex : rdRmdir d path = some (d', r)) :
    Change d (.rmdir path) d' := by
  by_cases hrm : ∃ p f, path ≠ rootName ∧ getFile d name g.files = some (some p) ∧ d.heap p = some f ∧
      f.type = .directory ∧ f.files = []
  · obtain ⟨p, f, hne, hg, hp, hdir, hempty⟩ := hrm
    rw [h.rmdir_eq ht hne hg hp hdir hempty] at hex
    split_ifs at hex
    obtain ⟨rfl, -⟩ := Prod.mk.inj (Option.some.inj hex)
    exact .rmdir trivial h.heap (mem_of_getFile hg) hp hdir hempty
  · push Not at hrm
    obtain ⟨r', hr'⟩ := h.rmdir_refused ht hrm
    obtain ⟨rfl, -⟩ := Prod.mk.inj (Option.some.inj (hr'.symm.trans hex))
    exact .same

theorem write_change (ht : Shape d) (hb : Bounded d) {buffer : List UInt8} {offset : ℤ} {p : ℕ} {f : RdFile}
    (h : Target d path p f) (hlen : buffer.length ≤ maxWrite) (hlo : -2 ^ 63 ≤ offset) (hhi : offset < 2 ^ 63) :
    ∃ d' r, Ramdisk.rdWrite d path buffer offset = some (d', r) ∧
      Change d (.write path buffer offset) d' := by
  have hs := hb p f h.heap h.regular
  have hclen := ht.length_contents h.heap h.regular
  by_cases hout : offset < 0 ∨ (f.size : ℤ) < offset
  · exact ⟨d, _, rdWrite_beyond h hs hlo hhi hout, .same⟩
  · rw [not_or, not_lt, not_lt] at hout
    obtain ⟨k, rfl⟩ := Int.eq_ofNat_of_zero_le hout.1
    have hk : k ≤ f.size := by exact_mod_cast hout.2
    rw [rdWrite_eq ht h hs hlen hk]
    split_ifs with h1 h2 h3
    · exact ⟨d, _, rfl, .same⟩
    · refine ⟨_, _, rfl, .write ⟨_, _, _, rfl⟩ h.heap h.regular ?_ h1.le fun _ => by omega⟩
      simp only [grown, List.length_append, List.length_take, length_strncpy]
      omega
    · exact ⟨d, _, rfl, .same⟩
    · have hsame : d.currentBytes + ((f.size : ℤ) - f.size) = d.currentBytes := by omega
      have hw : Change d (.write path buffer k)
          { d.setFile p { f with data := some (splice (contents f) buffer k), size := f.size } with
            currentBytes := d.currentBytes + ((f.size : ℤ) - f.size) } := by
        refine .write ⟨_, _, _, rfl⟩ h.heap h.regular ?_ le_rfl fun hlt => absurd hlt (lt_irrefl _)
        simp only [splice, List.length_append, List.length_take, List.length_drop]
        omega
      rw [hsame] at hw
      exact ⟨_, _, rfl, hw⟩

theorem getattr_same (ht : Shape d) (h : Found d path q g name) : ∃ r, Ramdisk.rdGetattr d path = some (d, r) := by
  obtain ⟨r, hr, -⟩ := ht.root
  rw [h.rdGetattr, hr]
  split_ifs
  · exact ⟨_, rfl⟩
  · rcases getFile_cases name (ht.live h.heap) with ⟨hg, -⟩ | ⟨p, f, hg, -, hp, -⟩
    · rw [hg]
      exact ⟨_, rfl⟩
    · rw [hg]
      simp only [Option.bind_some, hp]
      exact ⟨_, rfl⟩

theorem opendir_same (ht : Shape d) (h : Found d path q g name) : ∃ r, rdOpendir d path = some (d, r) := by
  unfold rdOpendir
  rw [h.getRdFile]
  split_ifs
  · exact ⟨_, rfl⟩
  · rcases getFile_cases name (ht.live h.heap) with ⟨hg, -⟩ | ⟨p, f, hg, -, hp, -⟩
    · rw [hg]
      exact ⟨_, rfl⟩
    · rw [hg]
      simp only [Option.bind_eq_bind, Option.bind_some, hp]
      split_ifs <;> exact ⟨_, rfl⟩

theorem readdir_same (ht : Shape d) (h : Found d path q g name) : ∃ r, Ramdisk.rdReaddir d path = some (d, r) := by
  -- a file that is found, the root included, can be listed if it is a directory
  have hlist : ∀ {p f}, d.heap p = some f → ∃ r, ((d.heap p).bind fun f =>
      if f.type = .regular then some (d, Reply.ofCode (-enoent))
      else (fillEntries d f.files).bind fun entries =>
        some (d, { Reply.ofCode 0 with entries := entries })) = some (d, r) := by
    intro p f hp
    obtain ⟨es, hes, -⟩ := fillEntries_live (ht.live hp)
    rw [hp, Option.bind_some, hes]
    split_ifs <;> exact ⟨_, rfl⟩
  obtain ⟨r, hr, -⟩ := ht.root
  rw [h.rdReaddir]
  split_ifs
  · exact hlist hr
  · rcases getFile_cases name (ht.live h.heap) with ⟨hg, -⟩ | ⟨p, f, hg, -, hp, -⟩
    · rw [hg]
      exact ⟨_, rfl⟩
    · rw [hg]
      exact hlist hp

theorem open_change (ht : Shape d) (h : Found d path q g name) (flags : ℕ) :
    ∃ d' r, rdOpen d path flags = some (d', r) ∧ Change d (.open path flags) d' := by
  unfold rdOpen
  rw [h.getRdFile]
  split_ifs
  · exact ⟨d, _, rfl, .same⟩
  · rcases getFile_cases name (ht.live h.heap) with ⟨hg, -⟩ | ⟨p, f, hg, -, hp, -⟩
    · rw [hg]
      exact ⟨d, _, rfl, .same⟩
    · rw [hg]
      simp only [Option.bind_eq_bind, Option.bind_some, hp]
      split_ifs
      · exact ⟨d, _, rfl, .same⟩
      · exact ⟨_, _, rfl, .mark hp⟩

theorem flush_same (ht : Shape d) (h : Found d path q g name) : ∃ r, rdFlush d path = some (d, r) := by
  unfold rdFlush
  rw [h.getRdFile]
  split_ifs
  · exact ⟨_, rfl⟩
  · rcases getFile_cases name (ht.live h.heap) with ⟨hg, -⟩ | ⟨p, f, hg, -⟩
    · rw [hg]
      exact ⟨_, rfl⟩
    · rw [hg]
      exact ⟨_, rfl⟩

theorem read_same (ht : Shape d) (hb : Bounded d) (h : Found d path q g name) {size : ℕ} {offset : ℤ}
    (hsize : size < 2 ^ 63) (hlo : -2 ^ 63 ≤ offset) (hhi : offset < 2 ^ 63) :
    ∃ r, rdRead d path size offset = some (d, r) := by
  by_cases hval : validPath path = true
  · rcases getFile_cases name (ht.live h.heap) with ⟨hg, -⟩ | ⟨p, f, hg, -, hp, -⟩
    · simp only [rdRead, hval, h.getRdFile, hg, Option.bind_eq_bind, Option.bind_some]
      exact ⟨_, rfl⟩
    · cases hft : f.type with
      | regular =>
        rw [rdRead_eq ht hval (h.getRdFile.trans hg) hp hft (hb p f hp hft) hsize hlo hhi]
        split_ifs <;> exact ⟨_, rfl⟩
      | directory =>
        simp only [rdRead, hval, h.getRdFile, hg, hp, hft, Option.bind_eq_bind, Option.bind_some, if_true]
        exact ⟨_, rfl⟩
  · simp only [rdRead, hval]
    exact ⟨_, rfl⟩

/-- What a call has done that has one result only. -/
theorem Change.of_exec {op : Op} (h : ∃ d₁ r₁, exec d op = some (d₁, r₁) ∧ Change d op d₁)
    (hex : exec d op = some (d', r)) : Change d op d' := by
  obtain ⟨d₁, r₁, hex₁, hch⟩ := h
  obtain ⟨rfl, -⟩ := Prod.mk.inj (Option.some.inj (hex.symm.trans hex₁))
  exact hch

/-- A callback that removes nothing goes right. -/
theorem exec_keeps (ht : Shape d) (hb : Bounded d) {op : Op} (hv : Vfs d op) (hu : ∀ path, op ≠ .unlink path)
    (hr : ∀ path, op ≠ .rmdir path) : ∃ d' r, exec d op = some (d', r) ∧ Change d op d' := by
  obtain ⟨q, g, name, h⟩ := hv.found ht
  have hsame : (∃ r, exec d op = some (d, r)) → ∃ d' r, exec d op = some (d', r) ∧ Change d op d' := by
    rintro ⟨r, hr⟩
    exact ⟨d, r, hr, .same⟩
  cases op with
  | create path => exact create_change h hv.absolute
  | mkdir path => exact mkdir_change ht h
  | write path buffer offset =>
    obtain ⟨hreg, hlen, hlo, hhi⟩ := hv.write path buffer offset rfl
    obtain ⟨p, f, htgt⟩ := hreg.target ht hv.parent hv.absolute
    exact write_change ht hb htgt hlen hlo hhi
  | unlink path => exact absurd rfl (hu path)
  | rmdir path => exact absurd rfl (hr path)
  | getattr path => exact hsame (getattr_same ht h)
  | opendir path => exact hsame (opendir_same ht h)
  | readdir path => exact hsame (readdir_same ht h)
  | «open» path flags => exact open_change ht h flags
  | flush path => exact hsame (flush_same ht h)
  | read path size offset =>
    obtain ⟨hsize, hlo, hhi⟩ := hv.read path size offset rfl
    exact hsame (read_same ht hb h hsize hlo hhi)
  | statfs path => exact hsame ⟨_, rfl⟩

/-- **What a callback that returns does to the disk** is one change. -/
theorem exec_change (ht : Shape d) (hb : Bounded d) {op : Op} (hv : Vfs d op) (hex : exec d op = some (d', r)) :
    Change d op d' := by
  obtain ⟨q, g, name, h⟩ := hv.found ht
  cases op with
  | unlink path => exact unlink_change ht h (hv.unlink path rfl) hex
  | rmdir path => exact rmdir_change ht h hex
  | _ => exact .of_exec (exec_keeps ht hb hv nofun nofun) hex

/-- **A callback goes wrong only at `free`**, when it removes a file. -/
theorem exec_returns (ht : Shape d) (hb : Bounded d) {op : Op} (hv : Vfs d op) :
    (∃ d' r, exec d op = some (d', r)) ↔ FreesKnown d op := by
  obtain ⟨q, g, name, h⟩ := hv.found ht
  have hdone : (∃ d' r, exec d op = some (d', r) ∧ Change d op d') → ∃ d' r, exec d op = some (d', r) := by
    rintro ⟨d', r, hex, -⟩
    exact ⟨d', r, hex⟩
  cases op with
  | unlink path => exact unlink_returns ht h
  | rmdir path => exact rmdir_returns ht h
  | _ => exact iff_of_true (hdone (exec_keeps ht hb hv nofun nofun)) trivial

end Exec

end Ramdisk
end Csc501

/-
# The data field is used before it is set

`create_rd_file` sets every field of a new file but `data`, and the callbacks
use it as if it were `NULL`: `rd_read` tests it, `rd_write` copies from it, and
`free_file` frees it. Only `rd_write` ever assigns it, when a file grows. So what
is used is a buffer of the file's size exactly if the file is a regular one with
bytes in it; the pointer of an empty file and that of a directory are what the
memory held before (`data_defined_iff`).

Key definitions: `dataUsed`, `DataDefined`, `UsesWritten`.
Key theorems: `Sound.dataDefined_iff`, `data_defined_iff`, `unlink_unset`.
-/
import Csc501.Ramdisk.Unique

namespace Csc501
namespace Ramdisk

open Lib

/-- The file whose field `data` the call uses: `rd_read` tests it, `rd_write`
copies from it, `rd_unlink` and `rd_rmdir` have it freed. -/
def dataUsed (d : Disk) : Op → Option RdFile
  | .read path _ _ =>
    if !validPath path then none
    else do
      let p ← ← getRdFile d path
      let f ← d.heap p
      if f.type = .directory then none else some f
  | .write path buffer offset =>
    if !validPath path then none
    else do
      let p ← ← getRdFile d path
      let f ← d.heap p
      if f.size < toSize offset then none
      else
        let sizeAfterWrite := toInt (toSize (offset + buffer.length))
        let bytesToAllocate := toInt (toSize (sizeAfterWrite - f.size))
        -- of a file of size zero nothing is copied
        if f.size < toSize sizeAfterWrite && memoryAvailable d bytesToAllocate && f.size ≠ 0 then some f else none
  | .unlink path =>
    if path = rootName then none
    else do
      let (fileNames, count) ← getDirs path
      let q ← ← getParentDirectory d fileNames count
      let g ← d.heap q
      let name ← fileNames[count]?
      let p ← ← getFile d name g.files
      d.heap p
  | .rmdir path =>
    if path = rootName then none
    else do
      let p ← ← getRdFile d path
      let f ← d.heap p
      if f.type = .directory && f.files = [] then some f else none
  | _ => none

/-- What is used is a buffer of exactly the file's size. -/
def DataDefined (d : Disk) (op : Op) : Prop :=
  ∀ f, dataUsed d op = some f → ∃ bs, f.data = some bs ∧ bs.length = f.size

/-- What is used belongs to a regular file with bytes in it. -/
def UsesWritten (d : Disk) (op : Op) : Prop :=
  ∀ f, dataUsed d op = some f → f.type = .regular ∧ 0 < f.size

/-- A file that is looked up and then only tested is in the heap. -/
theorem heap_of_lookup {d : Disk} {path : Text} {test : RdFile → Option RdFile} {f : RdFile}
    (htest : ∀ f f', test f = some f' → f = f')
    (h : ((getRdFile d path).bind fun o => o.bind fun p => (d.heap p).bind test) = some f) :
    ∃ p, d.heap p = some f := by
  obtain ⟨o, -, h⟩ := Option.bind_eq_some_iff.mp h
  obtain ⟨p, -, h⟩ := Option.bind_eq_some_iff.mp h
  obtain ⟨f', hp, h⟩ := Option.bind_eq_some_iff.mp h
  obtain rfl := htest f' f h
  exact ⟨p, hp⟩

/-- It is a file in the heap. -/
theorem dataUsed_heap {d : Disk} {op : Op} {f : RdFile} (h : dataUsed d op = some f) : ∃ p, d.heap p = some f := by
  cases op with
  | read path size offset =>
    simp only [dataUsed, Option.bind_eq_bind] at h
    split_ifs at h
    refine heap_of_lookup (fun f' f'' htest => ?_) h
    split_ifs at htest
    exact Option.some.inj htest
  | write path buffer offset =>
    simp only [dataUsed, Option.bind_eq_bind] at h
    split_ifs at h
    refine heap_of_lookup (fun f' f'' htest => ?_) h
    split_ifs at htest
    exact Option.some.inj htest
  | unlink path =>
    simp only [dataUsed, Option.bind_eq_bind] at h
    split_ifs at h
    obtain ⟨dirs, -, h⟩ := Option.bind_eq_some_iff.mp h
    obtain ⟨o, -, h⟩ := Option.bind_eq_some_iff.mp h
    obtain ⟨q, -, h⟩ := Option.bind_eq_some_iff.mp h
    obtain ⟨g, -, h⟩ := Option.bind_eq_some_iff.mp h
    obtain ⟨name, -, h⟩ := Option.bind_eq_some_iff.mp h
    obtain ⟨o', -, h⟩ := Option.bind_eq_some_iff.mp h
    obtain ⟨p, -, h⟩ := Option.bind_eq_some_iff.mp h
    exact ⟨p, h⟩
  | rmdir path =>
    simp only [dataUsed, Option.bind_eq_bind] at h
    split_ifs at h
    refine heap_of_lookup (fun f' f'' htest => ?_) h
    split_ifs at htest
    exact Option.some.inj htest
  | _ => simp [dataUsed] at h

/-- In a sound heap the data of a file are set, and as many as its size, exactly
if it is a regular file with bytes in it. -/
theorem Sound.data_iff {d : Disk} {p : ℕ} {f : RdFile} (hs : Sound d) (hp : d.heap p = some f) :
    (∃ bs, f.data = some bs ∧ bs.length = f.size) ↔ f.type = .regular ∧ 0 < f.size := by
  constructor
  · intro h
    obtain ⟨bs, hbs, -⟩ := h
    cases htype : f.type with
    | directory =>
      rw [(hs.blank p f hp htype).1] at hbs
      exact absurd hbs (by simp)
    | regular =>
      refine ⟨rfl, Nat.pos_of_ne_zero fun h0 => ?_⟩
      rw [hs.unset p f hp htype h0] at hbs
      exact absurd hbs (by simp)
  · intro ⟨hr, hpos⟩
    exact hs.shape.stored p f hp hr hpos

theorem Sound.dataDefined_iff {d : Disk} (hs : Sound d) (op : Op) : DataDefined d op ↔ UsesWritten d op := by
  constructor
  · intro h f hf
    obtain ⟨p, hp⟩ := dataUsed_heap hf
    exact (hs.data_iff hp).mp (h f hf)
  · intro h f hf
    obtain ⟨p, hp⟩ := dataUsed_heap hf
    exact (hs.data_iff hp).mpr (h f hf)

/-- **The data used in a run are defined exactly if they all belong to regular
files with bytes in them**, at every call of the run and at the next one, which
need not return. -/
theorem data_defined_iff {m : ℤ} {stale : ℕ → Bool} {tr : List (Trans Disk (Op × Reply))} {d : Disk} (op : Op)
    (hr : (calls m).Run (Disk.start m stale) tr d) :
    ((∀ t ∈ tr, DataDefined t.src t.label.1) ∧ DataDefined d op) ↔
      ((∀ t ∈ tr, UsesWritten t.src t.label.1) ∧ UsesWritten d op) := by
  have heach : ∀ t ∈ tr, (DataDefined t.src t.label.1 ↔ UsesWritten t.src t.label.1) := by
    intro t ht
    obtain ⟨⟨tr', hr'⟩, -⟩ := hr.step_of_mem ht
    exact (sound_run hr').dataDefined_iff t.label.1
  rw [(sound_run hr).dataDefined_iff op]
  exact and_congr_left fun _ => forall₂_congr heach

/-- `/a` is created on a disk of 1 MB. -/
def created : List (Trans Disk (Op × Reply)) :=
  [⟨Disk.start (2 ^ 20) zeroed, (.create "/a".toList, .ofCode 0), oneFile⟩]

theorem run_created : (calls (2 ^ 20)).Run (Disk.start (2 ^ 20) zeroed) created oneFile := .single ⟨⟨_, rfl⟩, rfl⟩

/-- **A pointer that was never set is freed**: `/a` is created and unlinked. -/
theorem unlink_unset : (calls (2 ^ 20)).Run (Disk.start (2 ^ 20) zeroed) created oneFile ∧
    ¬ ((∀ t ∈ created, DataDefined t.src t.label.1) ∧ DataDefined oneFile (.unlink "/a".toList)) := by
  refine ⟨run_created, fun ⟨_, h⟩ => ?_⟩
  obtain ⟨bs, hbs, -⟩ := h { createRdFile "a".toList rootName .regular with parent := some root } rfl
  exact absurd hbs (by simp [createRdFile])

theorem data_defined_iff_created : (calls (2 ^ 20)).Run (Disk.start (2 ^ 20) zeroed) created oneFile ∧
    (((∀ t ∈ created, DataDefined t.src t.label.1) ∧ DataDefined oneFile (.unlink "/a".toList)) ↔
      ((∀ t ∈ created, UsesWritten t.src t.label.1) ∧ UsesWritten oneFile (.unlink "/a".toList))) :=
  ⟨run_created, data_defined_iff _ run_created⟩

end Ramdisk
end Csc501

/-
# The callbacks under any calls

Without the kernel in front of them the callbacks may be called with any
absolute path: one whose parent is not there, a directory for `rd_unlink` or
`rd_write`, a name that exists for `rd_create`. Not every call then returns.
Of one that does, `exec_outcome` says what it has done: nothing, or one file
of the directory the path leads to was set, added or taken out. This leaves
the heap in shape, and the fields `data` and `size` in step with each other
(`Sound`): the data of a directory and of an empty file were never set, those of
any other file are as long as it is.

Key definitions: `calls`, `Lost`, `Sound`, `Outcome`.
Key theorems: `parent_cases`, `exec_outcome`, `Outcome.sound`, `sound_run`.
-/
import Csc501.Ramdisk.Space

namespace Csc501
namespace Ramdisk

open Lib

/-- An absolute path. -/
def Absolute (path : Text) : Prop := ∃ p, path = '/' :: p

/-- The disk under any calls with absolute paths that return. -/
def calls (maxBytes : ℤ) : Lts Disk (Op × Reply) where
  init d := ∃ stale, d = Disk.start maxBytes stale
  step d e d' := Absolute e.1.path ∧ exec d e.1 = some (d', e.2)

/-- The heap has the shape of a tree, and what a file's `data` are fits its
type and its size. -/
structure Sound (d : Disk) : Prop where
  shape : Shape d
  blank : ∀ p f, d.heap p = some f → f.type = .directory → f.data = none ∧ f.size = directoryBytes
  unset : ∀ p f, d.heap p = some f → f.type = .regular → f.size = 0 → f.data = none

/-- The path's parent is not there, or is no directory. -/
structure Lost (d : Disk) (path : Text) : Prop where
  dirs : ∃ names count, getDirs path = some (names, count) ∧ getParentDirectory d names count = some none

/-! ### Looking up any path -/

section Lookup

variable {d : Disk} {path : Text}

/-- The loop of `get_parent_directory` follows no bad pointer. -/
theorem Shape.descend_total (h : Shape d) : ∀ (names : List Text) {q : ℕ} {g : RdFile},
    d.heap q = some g → ∃ o, descend d q names = some o
  | [], q, _, _ => ⟨some q, rfl⟩
  | name :: names, q, g, hq => by
    rcases getFile_cases name (h.live hq) with ⟨h1, -⟩ | ⟨x, f, h1, -, hx, -⟩
    · exact ⟨none, by simp [descend, hq, h1]⟩
    · simp only [descend, hq, h1, hx, Option.bind_eq_bind, Option.bind_some]
      split_ifs
      · exact ⟨none, rfl⟩
      · exact h.descend_total names hx

/-- **An absolute path has a parent directory, or is lost.** -/
theorem parent_cases (h : Shape d) (habs : Absolute path) :
    (∃ q g name, Found d path q g name) ∨ Lost d path := by
  obtain ⟨p, rfl⟩ := habs
  obtain ⟨r, hr, -⟩ := h.root
  obtain ⟨o, ho⟩ := h.descend_total ((p.splitOn '/').take ((p.splitOn '/').length - 1)) hr
  cases o with
  | none => exact Or.inr ⟨_, _, getDirs_absolute p, ho⟩
  | some q =>
    left
    have hpar : ParentFound d ('/' :: p) := ⟨_, _, q, getDirs_absolute p, ho⟩
    exact hpar.found h ⟨p, rfl⟩

theorem Lost.not_parentFound (h : Lost d path) : ¬ ParentFound d path := by
  rintro ⟨names, count, q, h1, h2⟩
  obtain ⟨names', count', h1', h2'⟩ := h.dirs
  rw [h1] at h1'
  obtain ⟨rfl, rfl⟩ := Prod.mk.inj (Option.some.inj h1')
  rw [h2] at h2'
  exact absurd h2' (by simp)

theorem parentFound_root (d : Disk) : ParentFound d rootName := ⟨_, _, root, getDirs_root, rfl⟩

theorem Lost.ne_root (h : Lost d path) : path ≠ rootName := by
  rintro rfl
  exact h.not_parentFound (parentFound_root d)

/-- `get_rd_file` follows the parent that is not there. -/
theorem Lost.getRdFile (h : Lost d path) : getRdFile d path = none := by
  obtain ⟨names, count, h1, h2⟩ := h.dirs
  simp [Ramdisk.getRdFile, h1, h2]

/-! The callbacks that check the parent refuse the path. -/

theorem Lost.rdCreate (h : Lost d path) : ∃ r, rdCreate d path = some (d, r) ∧ r.code < 0 := by
  obtain ⟨names, count, h1, h2⟩ := h.dirs
  simp only [Ramdisk.rdCreate, h1, h2, Option.bind_eq_bind, Option.bind_some]
  split_ifs
  · exact ⟨_, rfl, by decide⟩
  · exact ⟨_, rfl, by decide⟩

theorem Lost.rdMkdir (h : Lost d path) : ∃ r, rdMkdir d path = some (d, r) ∧ r.code < 0 := by
  obtain ⟨names, count, h1, h2⟩ := h.dirs
  simp only [Ramdisk.rdMkdir, h1, h2, Option.bind_eq_bind, Option.bind_some, if_neg h.ne_root]
  split_ifs
  · exact ⟨_, rfl, by decide⟩
  · exact ⟨_, rfl, by decide⟩

theorem Lost.rdUnlink (h : Lost d path) : ∃ r, rdUnlink d path = some (d, r) ∧ r.code < 0 := by
  obtain ⟨names, count, h1, h2⟩ := h.dirs
  simp only [Ramdisk.rdUnlink, h1, h2, Option.bind_eq_bind, Option.bind_some, if_neg h.ne_root]
  exact ⟨_, rfl, by decide⟩

theorem Lost.rdGetattr (h : Lost d path) : ∃ r, rdGetattr d path = some (d, r) ∧ r.code < 0 := by
  obtain ⟨names, count, h1, h2⟩ := h.dirs
  simp only [Ramdisk.rdGetattr, h1, h2, Option.bind_eq_bind, Option.bind_some, if_neg h.ne_root]
  exact ⟨_, rfl, by decide⟩

theorem Lost.rdReaddir (h : Lost d path) : ∃ r, rdReaddir d path = some (d, r) ∧ r.code < 0 := by
  obtain ⟨names, count, h1, h2⟩ := h.dirs
  simp only [Ramdisk.rdReaddir, h1, h2, Option.bind_eq_bind, Option.bind_some]
  exact ⟨_, rfl, by decide⟩

theorem Found.parentFound {q : ℕ} {g : RdFile} {name : Text} (h : Found d path q g name) : ParentFound d path := by
  obtain ⟨names, count, h1, h2, -⟩ := h.dirs
  exact ⟨names, count, q, h1, h2⟩

/-- The file a path leads to is one of the parent's. -/
theorem Found.file {q p : ℕ} {g : RdFile} {name : Text} (h : Found d path q g name) (hs : Shape d)
    (hp : getFile d name g.files = some (some p)) : ∃ f, p ∈ g.files ∧ d.heap p = some f ∧ f.name = name := by
  rcases getFile_cases name (hs.live h.heap) with ⟨h1, -⟩ | ⟨x, f, h1, hm, hx, hn⟩
  · rw [h1] at hp
    exact absurd hp (by simp)
  · rw [h1] at hp
    obtain rfl : x = p := by simpa using hp
    exact ⟨f, hm, hx, hn⟩

end Lookup

/-! ### What is done by a call that returns -/

/-- What a call can have done when it returns. -/
inductive Outcome (d : Disk) (op : Op) : Disk → Prop
  | same : Outcome d op d
  | set {q p : ℕ} {g f f' : RdFile} {name : Text} (b : ℤ) (hne : op.path ≠ rootName)
      (hfound : Found d op.path q g name) (hfile : getFile d name g.files = some (some p)) (hp : d.heap p = some f)
      (htype : f'.type = f.type) (hname : f'.name = f.name) (hparent : f'.parent = f.parent)
      (hfiles : f'.files = f.files)
      (hdata : f'.data = f.data ∧ f'.size = f.size ∨
        f.type = .regular ∧ 0 < f'.size ∧ ∃ bs, f'.data = some bs ∧ bs.length = f'.size) :
      Outcome d op { d.setFile p f' with currentBytes := b }
  | add {q : ℕ} {g : RdFile} {name : Text} {type : FileType} (b : ℤ) (hne : op.path ≠ rootName)
      (hfound : Found d op.path q g name) (hname : type = .regular → name ≠ [])
      (hnew : (∃ path, op = .create path ∧ validPath path = true) ∨ getFile d name g.files = some none) :
      Outcome d op { addFile d q g (createRdFile name g.name type) with currentBytes := b }
  | remove {q p : ℕ} {g : RdFile} {name : Text} (b : ℤ) (hne : op.path ≠ rootName)
      (hfound : Found d op.path q g name) (hfile : getFile d name g.files = some (some p)) :
      Outcome d op { removeFile d q g p with currentBytes := b }

section Write

variable {f f' : RdFile} {n k : ℕ} {buffer bs : List UInt8}

theorem toInt_toSize (z : ℤ) : toInt (toSize z) = toInt z := by
  unfold toInt toSize
  have hpos : 0 ≤ z % 2 ^ 64 := Int.emod_nonneg z (by decide)
  rw [Int.toNat_of_nonneg hpos]
  have hdvd : z % 2 ^ 64 = z + (2 ^ 32 : ℕ) * -(2 ^ 32 * (z / 2 ^ 64)) := by
    rw [Int.emod_def]
    push_cast
    ring
  rw [hdvd, Int.add_mul_bmod_self_left]

/-- The size that `rd_write` computes for a file without bytes is not zero. -/
theorem newSize_pos {z : ℤ} {s : ℕ} (hs : s = 0) (h : s < toSize (toInt z)) :
    0 < toSize (toInt (toSize (toInt z - s)) + s) := by
  subst hs
  have hconv : toInt (toInt z) = toInt z := Int.bmod_bmod
  rwa [Nat.cast_zero, sub_zero, add_zero, toInt_toSize, hconv]

theorem length_grownData (h : grownData f n = some bs) : bs.length = n ∧ f.size ≤ n := by
  unfold grownData at h
  split_ifs at h with h0
  · obtain rfl := Option.some.inj h
    simp [h0]
  · cases hd : f.data with
    | none => simp [hd] at h
    | some old =>
      by_cases hg : f.size ≤ old.length ∧ f.size ≤ n
      · simp only [hd, guard, if_pos hg, Option.bind_eq_bind, Option.bind_some, pure, Option.some.injEq] at h
        subst h
        simp only [List.length_append, length_strncpy, List.length_replicate]
        omega
      · simp only [hd, guard, if_neg hg, Option.bind_eq_bind, Option.bind_some] at h
        exact absurd h (by simp)

theorem grownData_none (hs : f.size ≠ 0) (hd : f.data = none) : grownData f n = none := by
  simp [grownData, hs, hd]

/-- The loop of `rd_write` changes nothing but the bytes there are. -/
theorem storeBytes_some (h : storeBytes f k buffer = some f') : f'.type = f.type ∧ f'.name = f.name ∧
    f'.parent = f.parent ∧ f'.files = f.files ∧ f'.size = f.size ∧
    (f'.data = f.data ∨ ∃ old new, f.data = some old ∧ f'.data = some new ∧ new.length = old.length) := by
  unfold storeBytes at h
  split_ifs at h
  · obtain rfl := Option.some.inj h
    exact ⟨rfl, rfl, rfl, rfl, rfl, Or.inl rfl⟩
  · cases hd : f.data with
    | none => simp [hd] at h
    | some old =>
      simp only [hd, Option.bind_eq_bind, Option.bind_some, storeAt] at h
      split_ifs at h with hfit
      · obtain rfl := Option.some.inj h
        refine ⟨rfl, rfl, rfl, rfl, rfl, Or.inr ⟨old, _, rfl, rfl, ?_⟩⟩
        simp only [List.length_append, List.length_take, List.length_drop]
        omega
      · exact absurd h (by simp)

end Write

section Exec

variable {d d' : Disk} {path name : Text} {q p : ℕ} {g f : RdFile} {r : Reply}

theorem Outcome.of_same {op : Op} {r₀ : Reply} (h : some (d, r₀) = some (d', r)) : Outcome d op d' := by
  obtain ⟨rfl, -⟩ := Prod.mk.inj (Option.some.inj h)
  exact .same

theorem create_outcome (hs : Shape d) (habs : Absolute path) (hex : rdCreate d path = some (d', r)) :
    Outcome d (.create path) d' := by
  rcases parent_cases hs habs with ⟨q, g, name, h⟩ | h
  · rw [h.rdCreate] at hex
    split_ifs at hex with hbad
    · exact .of_same hex
    · obtain ⟨rfl, -⟩ := Prod.mk.inj (Option.some.inj hex)
      have hval : validPath path = true := by simpa [validPath] using hbad
      refine .add d.currentBytes (fun hroot => hbad (by simp [show path = rootName from hroot])) h (fun _ hnil => ?_)
        (Or.inl ⟨path, rfl, hval⟩)
      exact hbad (by simpa using h.slash_of_nil hnil habs)
  · obtain ⟨r', hr', -⟩ := h.rdCreate
    exact .of_same (hr'.symm.trans hex)

theorem mkdir_outcome (hs : Shape d) (habs : Absolute path) (hex : rdMkdir d path = some (d', r)) :
    Outcome d (.mkdir path) d' := by
  rcases parent_cases hs habs with ⟨q, g, name, h⟩ | h
  · rw [h.rdMkdir] at hex
    split_ifs at hex with hroot hroom
    · exact .of_same hex
    · exact .of_same hex
    · rcases getFile_cases name (hs.live h.heap) with ⟨hg, -⟩ | ⟨x, f, hg, -⟩
      · rw [hg] at hex
        obtain ⟨rfl, -⟩ := Prod.mk.inj (Option.some.inj hex)
        exact .add _ hroot h (fun ht => absurd ht (by simp)) (Or.inr hg)
      · rw [hg] at hex
        exact .of_same hex
  · obtain ⟨r', hr', -⟩ := h.rdMkdir
    exact .of_same (hr'.symm.trans hex)

theorem unlink_outcome (hs : Shape d) (habs : Absolute path) (hex : rdUnlink d path = some (d', r)) :
    Outcome d (.unlink path) d' := by
  rcases parent_cases hs habs with ⟨q, g, name, h⟩ | h
  · by_cases hroot : path = rootName
    · rw [h.rdUnlink, if_pos hroot] at hex
      exact .of_same hex
    · rcases getFile_cases name (hs.live h.heap) with ⟨hg, -⟩ | ⟨x, f, hg, -, hx, -⟩
      · rw [h.rdUnlink, if_neg hroot, hg] at hex
        exact .of_same hex
      · rw [h.unlink_eq hs hroot hg hx] at hex
        split_ifs at hex
        obtain ⟨rfl, -⟩ := Prod.mk.inj (Option.some.inj hex)
        exact .remove _ hroot h hg
  · obtain ⟨r', hr', -⟩ := h.rdUnlink
    exact .of_same (hr'.symm.trans hex)

theorem rmdir_outcome (hs : Shape d) (habs : Absolute path) (hex : rdRmdir d path = some (d', r)) :
    Outcome d (.rmdir path) d' := by
  by_cases hroot : path = rootName
  · rw [rdRmdir, if_pos hroot] at hex
    exact .of_same hex
  · rcases parent_cases hs habs with ⟨q, g, name, h⟩ | h
    · by_cases hrm : ∃ p f, getFile d name g.files = some (some p) ∧ d.heap p = some f ∧ f.type = .directory ∧
          f.files = []
      · obtain ⟨p, f, hg, hp, hdir, hempty⟩ := hrm
        rw [h.rmdir_eq hs hroot hg hp hdir hempty] at hex
        split_ifs at hex
        obtain ⟨rfl, -⟩ := Prod.mk.inj (Option.some.inj hex)
        exact .remove _ hroot h hg
      · push Not at hrm
        obtain ⟨r', hr'⟩ := h.rmdir_refused hs fun p f _ => hrm p f
        exact .of_same (hr'.symm.trans hex)
    · rw [rdRmdir, if_neg hroot, h.getRdFile] at hex
      exact absurd hex (by simp)

theorem open_outcome (hs : Shape d) (habs : Absolute path) {flags : ℕ}
    (hex : rdOpen d path flags = some (d', r)) : Outcome d (.open path flags) d' := by
  unfold rdOpen at hex
  split_ifs at hex with hval
  · exact .of_same hex
  · have hroot : path ≠ rootName := by
      rintro rfl
      exact hval (by decide)
    rcases parent_cases hs habs with ⟨q, g, name, h⟩ | h
    · rw [h.getRdFile] at hex
      rcases getFile_cases name (hs.live h.heap) with ⟨hg, -⟩ | ⟨x, f, hg, hm, hx, -⟩
      · rw [hg] at hex
        exact .of_same hex
      · simp only [hg, Option.bind_eq_bind, Option.bind_some, hx] at hex
        split_ifs at hex
        · exact .of_same hex
        · obtain ⟨rfl, -⟩ := Prod.mk.inj (Option.some.inj hex)
          exact .set d.currentBytes hroot h hg hx rfl rfl rfl rfl (Or.inl ⟨rfl, rfl⟩)
    · rw [h.getRdFile] at hex
      exact absurd hex (by simp)

theorem rdWrite_invalid {buffer : List UInt8} {offset : ℤ} (hval : validPath path = false) :
    rdWrite d path buffer offset = some (d, .ofCode (-enoent)) := by
  unfold rdWrite
  rw [hval]
  rfl

/-- Without the parent of the path, `rd_write` does not come to an end. -/
theorem rdWrite_none {buffer : List UInt8} {offset : ℤ} (hval : validPath path = true)
    (hget : getRdFile d path = none) : rdWrite d path buffer offset = none := by
  unfold rdWrite
  rw [hval, hget]
  rfl

/-- A write that returns has left the file as it was, or a regular file with
as many bytes as it says. -/
theorem write_outcome_any (hs : Sound d) (habs : Absolute path) {buffer : List UInt8} {offset : ℤ}
    (hex : rdWrite d path buffer offset = some (d', r)) : Outcome d (.write path buffer offset) d' := by
  rcases parent_cases hs.shape habs with ⟨q, g, name, h⟩ | h
  swap
  · cases hval : validPath path with
    | false =>
      rw [rdWrite_invalid hval] at hex
      exact .of_same hex
    | true =>
      rw [rdWrite_none hval h.getRdFile] at hex
      exact absurd hex (by simp)
  unfold rdWrite at hex
  split_ifs at hex with hval
  · exact .of_same hex
  have hroot : path ≠ rootName := by
    rintro rfl
    exact hval (by decide)
  rw [h.getRdFile] at hex
  rcases getFile_cases name (hs.shape.live h.heap) with ⟨hg, -⟩ | ⟨x, f, hg, hm, hx, -⟩
  · rw [hg] at hex
    exact .of_same hex
  -- a directory has no data, and a size that is not zero
  have hreg : ∀ {bs}, f.data = some bs → f.type = .regular := by
    intro bs hbs
    cases htype : f.type with
    | regular => rfl
    | directory =>
      rw [(hs.blank x f hx htype).1] at hbs
      exact absurd hbs (by simp)
  simp only [hg, Option.bind_eq_bind, Option.bind_some, hx] at hex
  split_ifs at hex with hbehind hgrow hroom
  · exact .of_same hex
  · exact .of_same hex
  · obtain ⟨temp, htemp, hex⟩ := Option.bind_eq_some_iff.mp hex
    obtain ⟨f', hf', hex⟩ := Option.bind_eq_some_iff.mp hex
    obtain ⟨rfl, -⟩ := Prod.mk.inj (Option.some.inj hex)
    obtain ⟨hlen, hle⟩ := length_grownData htemp
    obtain ⟨ht, hn, hp, hfs, hsize, hdata⟩ := storeBytes_some hf'
    dsimp only at ht hn hp hfs hsize hdata
    have htype : f.type = .regular := by
      cases hft : f.type with
      | regular => rfl
      | directory =>
        obtain ⟨hnone, hsz⟩ := hs.blank x f hx hft
        rw [grownData_none (by rw [hsz]; decide) hnone] at htemp
        exact absurd htemp (by simp)
    have hpos : 0 < f'.size := by
      rw [hsize]
      by_cases h0 : f.size = 0
      · exact newSize_pos h0 hgrow
      · exact lt_of_lt_of_le (Nat.pos_of_ne_zero h0) hle
    refine .set _ hroot h hg hx ht hn hp hfs (Or.inr ⟨htype, hpos, ?_⟩)
    rcases hdata with hdata | ⟨old, new, hold, hnew, hnl⟩
    · exact ⟨temp, hdata, hlen.trans hsize.symm⟩
    · obtain rfl : temp = old := Option.some.inj hold
      exact ⟨new, hnew, (hnl.trans hlen).trans hsize.symm⟩
  · obtain ⟨f', hf', hex⟩ := Option.bind_eq_some_iff.mp hex
    obtain ⟨rfl, -⟩ := Prod.mk.inj (Option.some.inj hex)
    obtain ⟨ht, hn, hp, hfs, hsize, hdata⟩ := storeBytes_some hf'
    refine .set d.currentBytes hroot h hg hx ht hn hp hfs ?_
    rcases hdata with hdata | ⟨old, new, hold, hnew, hnl⟩
    · exact Or.inl ⟨hdata, hsize⟩
    · have htype := hreg hold
      have hpos : 0 < f.size := by
        by_contra h0
        rw [hs.unset x f hx htype (by omega)] at hold
        exact absurd hold (by simp)
      obtain ⟨bs, hbs, hlen⟩ := hs.shape.stored x f hx htype hpos
      obtain rfl : bs = old := Option.some.inj (hbs.symm.trans hold)
      refine Or.inr ⟨htype, ?_, new, hnew, ?_⟩
      · rw [hsize]
        exact hpos
      · rw [hsize, hnl, hlen]

/-- The callbacks that only look. -/
def Op.Looks : Op → Prop
  | .getattr _ | .opendir _ | .readdir _ | .flush _ | .read _ _ _ | .statfs _ => True
  | _ => False

/-- What is returned comes with the disk `d`. -/
def Keeps (d : Disk) (x : Option (Disk × Reply)) : Prop := ∀ d' r, x = some (d', r) → d' = d

theorem keeps_some (r : Reply) : Keeps d (some (d, r)) := by
  intro d' r' h
  exact (Prod.mk.inj (Option.some.inj h)).1.symm

theorem keeps_bind {α : Type} {x : Option α} {k : α → Option (Disk × Reply)} (h : ∀ a, Keeps d (k a)) :
    Keeps d (x.bind k) := by
  intro d' r hx
  obtain ⟨a, -, ha⟩ := Option.bind_eq_some_iff.mp hx
  exact h a d' r ha

theorem keeps_ite {c : Prop} [Decidable c] {x y : Option (Disk × Reply)} (hx : Keeps d x) (hy : Keeps d y) :
    Keeps d (if c then x else y) := by
  split_ifs
  · exact hx
  · exact hy

/-- A call that only looks leaves the disk as it is. -/
theorem looks_keeps {op : Op} (hop : op.Looks) : Keeps d (exec d op) := by
  cases op with
  | getattr path =>
    apply keeps_bind
    intro ⟨names, count⟩
    apply keeps_ite
    · exact keeps_bind fun r => keeps_some _
    · apply keeps_bind
      intro o
      cases o with
      | none => exact keeps_some _
      | some q =>
        refine keeps_bind fun g => keeps_bind fun name => keeps_bind fun o => ?_
        cases o with
        | none => exact keeps_some _
        | some p => exact keeps_bind fun f => keeps_some _
  | opendir path =>
    apply keeps_ite (keeps_some _)
    apply keeps_bind
    intro o
    cases o with
    | none => exact keeps_some _
    | some p => exact keeps_bind fun f => keeps_ite (keeps_some _) (keeps_some _)
  | readdir path =>
    apply keeps_bind
    intro ⟨names, count⟩
    apply keeps_bind
    intro o
    cases o with
    | none => exact keeps_some _
    | some q =>
      refine keeps_bind fun g => keeps_bind fun name => ?_
      apply keeps_ite
      all_goals
        apply keeps_bind
        intro o
        cases o with
        | none => exact keeps_some _
        | some p => exact keeps_bind fun f => keeps_ite (keeps_some _) (keeps_bind fun entries => keeps_some _)
  | flush path =>
    apply keeps_ite (keeps_some _)
    apply keeps_bind
    intro o
    cases o <;> exact keeps_some _
  | read path size offset =>
    apply keeps_ite (keeps_some _)
    apply keeps_bind
    intro o
    cases o with
    | none => exact keeps_some _
    | some p =>
      apply keeps_bind
      intro f
      apply keeps_ite (keeps_some _)
      exact keeps_ite (keeps_bind fun bytes => keeps_bind fun _ => keeps_some _) (keeps_some _)
  | statfs path => exact keeps_some _
  | _ => exact absurd hop id

/-- **What a call that returns has done.** -/
theorem exec_outcome (hs : Sound d) {op : Op} (habs : Absolute op.path) (hex : exec d op = some (d', r)) :
    Outcome d op d' := by
  have hlook : op.Looks → Outcome d op d' := by
    intro hop
    rw [looks_keeps hop d' r hex]
    exact .same
  cases op with
  | create path => exact create_outcome hs.shape habs hex
  | mkdir path => exact mkdir_outcome hs.shape habs hex
  | write path buffer offset => exact write_outcome_any hs habs hex
  | unlink path => exact unlink_outcome hs.shape habs hex
  | rmdir path => exact rmdir_outcome hs.shape habs hex
  | «open» path flags => exact open_outcome hs.shape habs hex
  | _ => exact hlook trivial

/-! ### What every call keeps -/

theorem Sound.congr (h : Sound d) (hheap : d'.heap = d.heap) (hnext : d'.next = d.next) : Sound d' := by
  refine ⟨h.shape.congr hheap hnext, ?_, ?_⟩
  · rw [hheap]
    exact h.blank
  · rw [hheap]
    exact h.unset

theorem sound_start (m : ℤ) (stale : ℕ → Bool) : Sound (Disk.start m stale) := by
  have hroot : ∀ p f, (Disk.start m stale).heap p = some f → f = createRdFile rootName [] .directory := by
    intro p f h
    by_cases hp : p = root
    · simpa [Disk.start, hp, eq_comm] using h
    · simp [Disk.start, hp] at h
  refine ⟨(tree_start m stale).shape, fun p f h _ => ?_, fun p f h hr => ?_⟩
  · rw [hroot p f h]
    exact ⟨rfl, rfl⟩
  · rw [hroot p f h] at hr
    exact absurd hr (by simp [createRdFile])

/-- A file that is added has no data yet. -/
theorem Sound.addFile {type : FileType} (h : Sound d) (hq : d.heap q = some g) (hdir : g.type = .directory)
    (hname : type = .regular → name ≠ []) : Sound (addFile d q g (createRdFile name g.name type)) := by
  refine ⟨h.shape.addFile hq hdir hname, fun x y hx ht => ?_, fun x y hx hr hz => ?_⟩
  · rw [addFile_heap] at hx
    split_ifs at hx with hxq hxn
    · obtain rfl := Option.some.inj hx
      exact h.blank q g hq hdir
    · obtain rfl := Option.some.inj hx
      have htype : type = .directory := ht
      subst htype
      exact ⟨rfl, rfl⟩
    · exact h.blank x y hx ht
  · rcases addFile_regular hdir hx hr with rfl | hx
    · rfl
    · exact h.unset x y hx hr hz

theorem Sound.removeFile (h : Sound d) (hq : d.heap q = some g) (hm : p ∈ g.files) : Sound (removeFile d q g p) := by
  -- what is left has its type, size and data
  have hback : ∀ {x y}, (Ramdisk.removeFile d q g p).heap x = some y → ∃ z, d.heap x = some z ∧
      y.type = z.type ∧ y.size = z.size ∧ y.data = z.data := by
    intro x y hx
    rw [removeFile_heap] at hx
    split_ifs at hx with hxp hxq
    · obtain rfl := Option.some.inj hx
      exact ⟨g, hxq ▸ hq, rfl, rfl, rfl⟩
    · exact ⟨y, hx, rfl, rfl, rfl⟩
  refine ⟨h.shape.removeFile hq hm, fun x y hx ht => ?_, fun x y hx hr hz => ?_⟩
  · obtain ⟨z, hz, h1, h2, h3⟩ := hback hx
    rw [h2, h3]
    exact h.blank x z hz (h1 ▸ ht)
  · obtain ⟨w, hw, h1, h2, h3⟩ := hback hx
    rw [h3]
    exact h.unset x w hw (h1 ▸ hr) (h2 ▸ hz)

/-- A file may get other data, if they are as many as it says and some. -/
theorem Sound.setFile {f' : RdFile} (h : Sound d) (hp : d.heap p = some f) (htype : f'.type = f.type)
    (hname : f'.name = f.name) (hparent : f'.parent = f.parent) (hfiles : f'.files = f.files)
    (hdata : f'.data = f.data ∧ f'.size = f.size ∨
      f.type = .regular ∧ 0 < f'.size ∧ ∃ bs, f'.data = some bs ∧ bs.length = f'.size) :
    Sound (d.setFile p f') := by
  refine ⟨h.shape.setFile hp htype hname hparent hfiles fun hr hs => ?_, fun x y hx ht => ?_,
    fun x y hx hr hz => ?_⟩
  · rcases hdata with ⟨h1, h2⟩ | ⟨-, -, hbs⟩
    · rw [h1, h2]
      exact h.shape.stored p f hp (htype ▸ hr) (h2 ▸ hs)
    · exact hbs
  · rw [setFile_heap] at hx
    split_ifs at hx
    · obtain rfl := Option.some.inj hx
      have ht' : f.type = .directory := htype ▸ ht
      rcases hdata with ⟨h1, h2⟩ | ⟨hr, -⟩
      · rw [h1, h2]
        exact h.blank p f hp ht'
      · exact absurd (hr.symm.trans ht') (by simp)
    · exact h.blank x y hx ht
  · rw [setFile_heap] at hx
    split_ifs at hx
    · obtain rfl := Option.some.inj hx
      rcases hdata with ⟨h1, h2⟩ | ⟨-, hpos, -⟩
      · rw [h1]
        exact h.unset p f hp (htype ▸ hr) (h2 ▸ hz)
      · omega
    · exact h.unset x y hx hr hz

theorem Outcome.sound {op : Op} (h : Outcome d op d') (hs : Sound d) : Sound d' := by
  cases h with
  | same => exact hs
  | set b _ _ _ hp htype hname hparent hfiles hdata =>
    exact (hs.setFile hp htype hname hparent hfiles hdata).congr rfl rfl
  | add b _ hfound hname _ => exact (hs.addFile hfound.heap hfound.dir hname).congr rfl rfl
  | remove b _ hfound hfile =>
    obtain ⟨f, hm, -⟩ := hfound.file hs.shape hfile
    exact (hs.removeFile hfound.heap hm).congr rfl rfl

theorem sound_step {m : ℤ} {e : Op × Reply} (hs : Sound d) (hst : (calls m).step d e d') : Sound d' :=
  (exec_outcome hs hst.1 hst.2).sound hs

/-- The heap is sound whatever is called. -/
theorem sound_run {m : ℤ} {stale : ℕ → Bool} {tr : List (Trans Disk (Op × Reply))}
    (hr : (calls m).Run (Disk.start m stale) tr d) : Sound d :=
  Lts.Run.invariant (I := fun _ d => Sound d) (sound_start m stale) (fun _ _ _ _ _ hs hst => sound_step hs hst) hr

theorem sound_reachable {m : ℤ} (hd : (calls m).Reachable d) : Sound d := by
  obtain ⟨d₀, tr, ⟨stale, rfl⟩, hr⟩ := hd
  exact sound_run hr

end Exec

end Ramdisk
end Csc501

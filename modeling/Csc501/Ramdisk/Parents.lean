/-
# Paths whose parent is not there

Five callbacks look up the parent of their path and check it. The others call
`get_rd_file`, which does not: a path whose parent is missing or is no directory
makes it follow a `NULL` pointer, unless the callback has returned before. Under
any requests of the kernel's size, but for any paths, a callback completes, and
refuses a path without parent, exactly if it is one of those that check, has
returned before, or the parent is there (`parents_checked_iff`). Two more things
can go wrong: `rd_write` lets directories pass, whose data were never set, and
what `rd_unlink` and `rd_rmdir` free may never have been set.

Key definitions: `Request`, `requests`, `Refuses`, `StoresInDirectory`, `Guarded`.
Key theorems: `exec_request`, `ledger_reachable`, `rdWrite_directory`, `exec_found`, `exec_lost`,
`parents_checked_iff`.
-/
import Csc501.Ramdisk.Calls

namespace Csc501
namespace Ramdisk

open Lib

/-- A request of FUSE: an absolute path, and the sizes and offsets there are. -/
structure Request (op : Op) : Prop where
  absolute : Absolute op.path
  write : ∀ p b o, op = .write p b o → b.length ≤ maxWrite ∧ -2 ^ 63 ≤ o ∧ o < 2 ^ 63
  read : ∀ p n o, op = .read p n o → n < 2 ^ 63 ∧ -2 ^ 63 ≤ o ∧ o < 2 ^ 63

/-- The disk under any such requests that return. -/
def requests (maxBytes : ℤ) : Lts Disk (Op × Reply) where
  init d := ∃ stale, d = Disk.start maxBytes stale
  step d e d' := Request e.1 ∧ exec d e.1 = some (d', e.2)

/-- `rd_unlink` has taken out a directory, with all that is in it. -/
def Discarded (d d' : Disk) : Prop :=
  ∃ q g p f, d.heap q = some g ∧ p ∈ g.files ∧ d.heap p = some f ∧ f.type = .directory ∧
    d' = { removeFile d q g p with currentBytes := d.currentBytes - f.size }

/-- Bytes are to be stored in a directory: it passes all checks of `rd_write`. -/
def StoresInDirectory (d : Disk) (path : Text) (buffer : List UInt8) (offset : ℤ) : Prop :=
  ∃ p f, getRdFile d path = some (some p) ∧ d.heap p = some f ∧ f.type = .directory ∧ buffer ≠ [] ∧
    0 ≤ offset ∧ offset ≤ f.size ∧
    (f.size < offset + buffer.length → d.currentBytes + (offset + buffer.length - f.size) ≤ d.maxBytes)

section Write

variable {d : Disk} {path : Text} {p : ℕ} {f : RdFile} {buffer : List UInt8} {offset : ℤ}

/-- **What `rd_write` does to a directory**: nothing, or it follows a pointer
that was never set. -/
theorem rdWrite_directory (hs : Sound d) (hval : validPath path = true) (hfile : getRdFile d path = some (some p))
    (hp : d.heap p = some f) (hdir : f.type = .directory) (hlen : buffer.length ≤ maxWrite)
    (hlo : -2 ^ 63 ≤ offset) (hhi : offset < 2 ^ 63) :
    StoresInDirectory d path buffer offset ∧ rdWrite d path buffer offset = none ∨
      ¬ StoresInDirectory d path buffer offset ∧ ∃ r, rdWrite d path buffer offset = some (d, r) := by
  obtain ⟨hdata, hsize⟩ := hs.blank p f hp hdir
  have hs4 : f.size ≤ maxCapacity := by
    rw [hsize]
    decide
  have hpos : f.size ≠ 0 := by
    rw [hsize]
    decide
  -- the file is the one of the path
  have hiff : StoresInDirectory d path buffer offset ↔ buffer ≠ [] ∧ 0 ≤ offset ∧ offset ≤ f.size ∧
      (f.size < offset + buffer.length → d.currentBytes + (offset + buffer.length - f.size) ≤ d.maxBytes) := by
    constructor
    · rintro ⟨p', f', hfile', hp', -, hrest⟩
      rw [hfile] at hfile'
      obtain rfl : p = p' := by simpa using hfile'
      rw [hp] at hp'
      obtain rfl := Option.some.inj hp'
      exact hrest
    · intro hrest
      exact ⟨p, f, hfile, hp, hdir, hrest⟩
  rw [hiff]
  simp only [rdWrite, hval, hfile, hp, Option.bind_eq_bind, Option.bind_some, Bool.not_true, Bool.false_eq_true,
    if_false]
  by_cases hout : offset < 0 ∨ (f.size : ℤ) < offset
  · have hlt : f.size < toSize offset := by
      unfold maxCapacity at hs4
      rcases hout with hneg | hbig
      · have := toSize_of_neg hneg hlo
        omega
      · have := toSize_eq_self (z := offset) (by omega) (by omega)
        omega
    rw [if_pos hlt]
    exact Or.inr ⟨fun h => by omega, _, rfl⟩
  · rw [not_or, not_lt, not_lt] at hout
    obtain ⟨k, rfl⟩ := Int.eq_ofNat_of_zero_le hout.1
    have hk : k ≤ f.size := by exact_mod_cast hout.2
    obtain ⟨e1, e2, e3, e4, e5⟩ := sizes_exact hs4 hk hlen
    simp only [e1, e2, e3, e5, if_neg (not_lt.mpr hk)]
    by_cases hgrow : f.size < k + buffer.length
    · have hne : buffer ≠ [] := by
        rintro rfl
        simp only [List.length_nil] at hgrow
        omega
      rw [if_pos hgrow, e4 hgrow]
      by_cases hroom : d.currentBytes + (((k + buffer.length : ℕ) : ℤ) - f.size) ≤ d.maxBytes
      · rw [if_neg (by simpa [memoryAvailable] using hroom), grownData_none hpos hdata]
        refine Or.inl ⟨⟨hne, hout.1, hout.2, fun _ => ?_⟩, rfl⟩
        push_cast at hroom
        exact hroom
      · rw [if_pos (by simpa [memoryAvailable] using hroom)]
        refine Or.inr ⟨fun h => hroom ?_, _, rfl⟩
        push_cast
        exact h.2.2.2 (by exact_mod_cast hgrow)
    · rw [if_neg hgrow]
      by_cases hne : buffer = []
      · have hsame : d.setFile p f = d := by
          rw [Disk.setFile, ← hp, Function.update_eq_self]
        refine Or.inr ⟨fun h => h.1 hne, ?_⟩
        simp only [storeBytes, if_pos hne, Option.bind_some, hsame]
        exact ⟨_, rfl⟩
      · refine Or.inl ⟨⟨hne, hout.1, hout.2, fun h => ?_⟩, ?_⟩
        · exact absurd (by exact_mod_cast h) hgrow
        · simp [storeBytes, hne, hdata]

end Write

/-! ### Runs of requests -/

section Request

variable {d d' : Disk} {op : Op} {r : Reply} {path : Text} {m : ℤ}

theorem unlink_request (hs : Shape d) (habs : Absolute path) (hex : rdUnlink d path = some (d', r)) :
    Change d (.unlink path) d' ∨ Discarded d d' := by
  rcases parent_cases hs habs with ⟨q, g, name, h⟩ | h
  · rcases getFile_cases name (hs.live h.heap) with ⟨hg, -⟩ | ⟨p, f, hg, hm, hp, -⟩
    · rw [h.rdUnlink, hg] at hex
      split_ifs at hex
      all_goals
        obtain ⟨rfl, -⟩ := Prod.mk.inj (Option.some.inj hex)
        exact Or.inl .same
    · cases htype : f.type with
      | regular =>
        have hreg : IsRegular d path := ⟨p, f, h.getRdFile.trans hg, hp, htype⟩
        exact Or.inl (unlink_change hs h hreg hex)
      | directory =>
        by_cases hroot : path = rootName
        · rw [h.rdUnlink, if_pos hroot] at hex
          obtain ⟨rfl, -⟩ := Prod.mk.inj (Option.some.inj hex)
          exact Or.inl .same
        · rw [h.unlink_eq hs hroot hg hp] at hex
          split_ifs at hex
          obtain ⟨rfl, -⟩ := Prod.mk.inj (Option.some.inj hex)
          exact Or.inr ⟨q, g, p, f, h.heap, hm, hp, htype, rfl⟩
  · obtain ⟨r', hr', -⟩ := h.rdUnlink
    obtain ⟨rfl, -⟩ := Prod.mk.inj (Option.some.inj (hr'.symm.trans hex))
    exact Or.inl .same

theorem write_request (hs : Sound d) (hb : Bounded d) {buffer : List UInt8} {offset : ℤ}
    (hreq : Request (.write path buffer offset)) (hex : rdWrite d path buffer offset = some (d', r)) :
    Change d (.write path buffer offset) d' := by
  obtain ⟨hlen, hlo, hhi⟩ := hreq.write path buffer offset rfl
  have hsame : ∀ {r'}, some (d, r') = some (d', r) → Change d (.write path buffer offset) d' := by
    intro r' h
    obtain ⟨rfl, -⟩ := Prod.mk.inj (Option.some.inj h)
    exact .same
  by_cases hval : validPath path = true
  · rcases parent_cases hs.shape hreq.absolute with ⟨q, g, name, h⟩ | h
    · have hget : getRdFile d path = _ := h.getRdFile
      rcases getFile_cases name (hs.shape.live h.heap) with ⟨hg, -⟩ | ⟨p, f, hg, hm, hp, -⟩
      · simp only [rdWrite, hval, hget, hg, Option.bind_eq_bind, Option.bind_some, Bool.not_true] at hex
        exact hsame hex
      · rw [hg] at hget
        cases htype : f.type with
        | regular => exact .of_exec (write_change hs.shape hb ⟨hval, hget, hp, htype⟩ hlen hlo hhi) hex
        | directory =>
          rcases rdWrite_directory hs hval hget hp htype hlen hlo hhi with ⟨-, hnone⟩ | ⟨-, r', hr'⟩
          · rw [hnone] at hex
            exact absurd hex (by simp)
          · rw [hr'] at hex
            exact hsame hex
    · rw [rdWrite_none hval h.getRdFile] at hex
      exact absurd hex (by simp)
  · rw [rdWrite_invalid (Bool.eq_false_iff.mpr hval)] at hex
    exact hsame hex

/-- A callback that checks nothing has returned before it looks, or has found
the parent. -/
theorem found_of_getRdFile (hs : Shape d) (habs : Absolute path) {o : Option ℕ} (h : getRdFile d path = some o) :
    ∃ q g name, Found d path q g name := by
  rcases parent_cases hs habs with hf | hl
  · exact hf
  · rw [hl.getRdFile] at h
    exact absurd h (by simp)

/-- What a request that returns has done. -/
theorem exec_request (hs : Sound d) (hb : Bounded d) (hreq : Request op) (hex : exec d op = some (d', r)) :
    Change d op d' ∨ Discarded d d' := by
  have hlook : op.Looks → Change d op d' := by
    intro hop
    rw [looks_keeps hop d' r hex]
    exact .same
  -- a call that adds nothing has left the disk as it is
  have hsame : ∀ {r'}, some (d, r') = some (d', r) → Change d op d' := by
    intro r' h
    obtain ⟨rfl, -⟩ := Prod.mk.inj (Option.some.inj h)
    exact .same
  cases op with
  | create path =>
    left
    rcases parent_cases hs.shape hreq.absolute with ⟨q, g, name, h⟩ | h
    · exact .of_exec (create_change h hreq.absolute) hex
    · obtain ⟨r', hr', -⟩ := h.rdCreate
      exact hsame (hr'.symm.trans hex)
  | mkdir path =>
    left
    rcases parent_cases hs.shape hreq.absolute with ⟨q, g, name, h⟩ | h
    · exact .of_exec (mkdir_change hs.shape h) hex
    · obtain ⟨r', hr', -⟩ := h.rdMkdir
      exact hsame (hr'.symm.trans hex)
  | rmdir path =>
    left
    by_cases hroot : path = rootName
    · simp only [exec, rdRmdir, if_pos hroot] at hex
      exact hsame hex
    · have hsome := hex
      simp only [exec, rdRmdir, if_neg hroot, Option.bind_eq_bind] at hsome
      obtain ⟨o, ho, -⟩ := Option.bind_eq_some_iff.mp hsome
      obtain ⟨q, g, name, h⟩ := found_of_getRdFile hs.shape hreq.absolute ho
      exact rmdir_change hs.shape h hex
  | «open» path flags =>
    left
    by_cases hval : (!validPath path) = true
    · simp only [exec, rdOpen, if_pos hval] at hex
      exact hsame hex
    · have hsome := hex
      simp only [exec, rdOpen, if_neg hval, Option.bind_eq_bind] at hsome
      obtain ⟨o, ho, -⟩ := Option.bind_eq_some_iff.mp hsome
      obtain ⟨q, g, name, h⟩ := found_of_getRdFile hs.shape hreq.absolute ho
      exact .of_exec (open_change hs.shape h flags) hex
  | unlink path => exact unlink_request hs.shape hreq.absolute hex
  | write path buffer offset => exact Or.inl (write_request hs hb hreq hex)
  | _ => exact Or.inl (hlook trivial)

/-- A directory that is unlinked is taken off the count like an empty one. -/
theorem Discarded.ledger (h : Discarded d d') (hs : Sound d) (hl : Ledger d) : Ledger d' := by
  obtain ⟨q, g, p, f, hq, hm, hp, hdir, rfl⟩ := h
  have hsize := (hs.blank p f hp hdir).2
  have hu := used_removeFile hl.shape hq hm
  rw [bytesAt_some hp (hl.shape.child_ne_root hq hm), fileBytes_directory hdir, ← hsize] at hu
  have hc := hl.counted
  have hr := hl.room
  refine ⟨(hl.shape.removeFile hq hm).congr rfl rfl, ?_, ?_, hl.capacity⟩
  · show d.currentBytes - f.size = (used (removeFile d q g p) : ℤ)
    omega
  · show d.currentBytes - f.size ≤ d.maxBytes
    omega

theorem ledger_step {e : Op × Reply} (hs : Sound d) (hl : Ledger d) (hst : (requests m).step d e d') :
    Sound d' ∧ Ledger d' := by
  obtain ⟨hreq, hex⟩ := hst
  refine ⟨(exec_outcome hs hreq.absolute hex).sound hs, ?_⟩
  rcases exec_request hs hl.bounded hreq hex with hch | hdis
  · exact hch.ledger hl
  · exact hdis.ledger hs hl

/-- The disk is sound and counts right whatever is requested. -/
theorem ledger_reachable (hm : Capacity m) (hd : (requests m).Reachable d) : Sound d ∧ Ledger d := by
  refine Lts.reachable_invariant (I := fun d => Sound d ∧ Ledger d) (fun s hs => ?_) (fun s e s' _ hi hst => ?_) hd
  · obtain ⟨stale, rfl⟩ : ∃ stale, s = Disk.start m stale := hs
    exact ⟨sound_start m stale, (inv_start hm stale).ledger⟩
  · exact ledger_step hi.1 hi.2 hst

end Request

/-! ### Which callbacks check -/

/-- What is to hold of a callback: it completes, and if the parent of its path is
not there it answers with an error and changes nothing. -/
def Refuses (d : Disk) (op : Op) : Prop :=
  ∃ d' r, exec d op = some (d', r) ∧ (¬ ParentFound d op.path → r.code < 0 ∧ d' = d)

/-- The callback checks the parent, or returns before it looks for it, or the
parent is there; `rd_write` does not store in a directory, and what `rd_unlink` and
`rd_rmdir` free was set, or is `NULL`. -/
def Guarded (d : Disk) : Op → Prop
  | .opendir path => path = rootName ∨ ParentFound d path
  | .rmdir path => path = rootName ∨ ParentFound d path ∧ FreesKnown d (.rmdir path)
  | .unlink path => FreesKnown d (.unlink path)
  | .open path _ | .flush path | .read path _ _ => validPath path = false ∨ ParentFound d path
  | .write path buffer offset =>
    validPath path = false ∨ ParentFound d path ∧ ¬ StoresInDirectory d path buffer offset
  | _ => True

section Guard

variable {d : Disk} {op : Op} {path : Text}

theorem refuses_of_found (hpar : ParentFound d op.path) {d' : Disk} {r : Reply} (hex : exec d op = some (d', r)) :
    Refuses d op := ⟨d', r, hex, fun h => absurd hpar h⟩

theorem refuses_of_error {r : Reply} (hex : exec d op = some (d, r)) (hcode : r.code < 0) : Refuses d op :=
  ⟨d, r, hex, fun _ => ⟨hcode, rfl⟩⟩

theorem not_refuses_of_none (hex : exec d op = none) : ¬ Refuses d op := by
  rintro ⟨d', r, h, -⟩
  rw [hex] at h
  exact absurd h (by simp)

/-- With the parent there, `rd_write` completes or stores in a directory. -/
theorem write_found (hs : Sound d) (hb : Bounded d) {q : ℕ} {g : RdFile} {name : Text} (h : Found d path q g name)
    {buffer : List UInt8} {offset : ℤ} (hreq : Request (.write path buffer offset)) (hval : validPath path = true) :
    (∃ d' r, rdWrite d path buffer offset = some (d', r)) ∧ ¬ StoresInDirectory d path buffer offset ∨
      rdWrite d path buffer offset = none ∧ StoresInDirectory d path buffer offset := by
  obtain ⟨hlen, hlo, hhi⟩ := hreq.write path buffer offset rfl
  have hget : getRdFile d path = _ := h.getRdFile
  rcases getFile_cases name (hs.shape.live h.heap) with ⟨hg, -⟩ | ⟨p, f, hg, hm, hp, -⟩
  · rw [hg] at hget
    left
    constructor
    · simp only [rdWrite, hval, hget, Option.bind_eq_bind, Option.bind_some]
      exact ⟨_, _, rfl⟩
    · rintro ⟨p', f', hp', -⟩
      rw [hget] at hp'
      exact absurd hp' (by simp)
  · rw [hg] at hget
    cases htype : f.type with
    | regular =>
      obtain ⟨d', r, hex, -⟩ := write_change hs.shape hb ⟨hval, hget, hp, htype⟩ hlen hlo hhi
      refine Or.inl ⟨⟨d', r, hex⟩, ?_⟩
      rintro ⟨p', f', hp', hf', hdir, -⟩
      rw [hget] at hp'
      obtain rfl : p = p' := by simpa using hp'
      rw [hp] at hf'
      obtain rfl := Option.some.inj hf'
      exact absurd (htype.symm.trans hdir) (by simp)
    | directory =>
      rcases rdWrite_directory hs hval hget hp htype hlen hlo hhi with ⟨h1, h2⟩ | ⟨h1, r, h2⟩
      · exact Or.inr ⟨h2, h1⟩
      · exact Or.inl ⟨⟨d, r, h2⟩, h1⟩

/-- With the parent there, a callback has only to complete. -/
theorem refuses_iff_returns (hpar : ParentFound d op.path) : Refuses d op ↔ ∃ d' r, exec d op = some (d', r) := by
  constructor
  · rintro ⟨d', r, hex, -⟩
    exact ⟨d', r, hex⟩
  · rintro ⟨d', r, hex⟩
    exact refuses_of_found hpar hex

/-- With the parent there, every callback completes that is guarded. -/
theorem exec_found (hs : Sound d) (hb : Bounded d) (hreq : Request op) (hpar : ParentFound d op.path) :
    Refuses d op ↔ Guarded d op := by
  obtain ⟨q, g, name, h⟩ : ∃ q g name, Found d op.path q g name := hpar.found hs.shape hreq.absolute
  have hsh := hs.shape
  rw [refuses_iff_returns hpar]
  cases op with
  | create path =>
    obtain ⟨d', r, hex, -⟩ := create_change h hreq.absolute
    exact iff_of_true ⟨d', r, hex⟩ trivial
  | mkdir path =>
    obtain ⟨d', r, hex, -⟩ := mkdir_change hsh h
    exact iff_of_true ⟨d', r, hex⟩ trivial
  | unlink path => exact unlink_returns hsh h
  | rmdir path =>
    refine (rmdir_returns hsh h).trans ⟨fun hk => Or.inr ⟨hpar, hk⟩, ?_⟩
    rintro (hroot | ⟨-, hk⟩)
    · exact fun p f hne => absurd hroot hne
    · exact hk
  | getattr path =>
    obtain ⟨r, hex⟩ := getattr_same hsh h
    exact iff_of_true ⟨d, r, hex⟩ trivial
  | opendir path =>
    obtain ⟨r, hex⟩ := opendir_same hsh h
    exact iff_of_true ⟨d, r, hex⟩ (Or.inr hpar)
  | readdir path =>
    obtain ⟨r, hex⟩ := readdir_same hsh h
    exact iff_of_true ⟨d, r, hex⟩ trivial
  | «open» path flags =>
    obtain ⟨d', r, hex, -⟩ := open_change hsh h flags
    exact iff_of_true ⟨d', r, hex⟩ (Or.inr hpar)
  | flush path =>
    obtain ⟨r, hex⟩ := flush_same hsh h
    exact iff_of_true ⟨d, r, hex⟩ (Or.inr hpar)
  | read path size offset =>
    obtain ⟨hsize, hlo, hhi⟩ := hreq.read path size offset rfl
    obtain ⟨r, hex⟩ := read_same hsh hb h hsize hlo hhi
    exact iff_of_true ⟨d, r, hex⟩ (Or.inr hpar)
  | statfs path => exact iff_of_true ⟨_, _, rfl⟩ trivial
  | write path buffer offset =>
    by_cases hval : validPath path = true
    · rcases write_found hs hb h hreq hval with ⟨hex, hno⟩ | ⟨hex, hst⟩
      · exact iff_of_true hex (Or.inr ⟨hpar, hno⟩)
      · refine iff_of_false ?_ ?_
        · rintro ⟨d', r, hex'⟩
          exact absurd (hex.symm.trans hex') (by simp)
        · rintro (hbad | ⟨-, hno⟩)
          · exact absurd (hval.symm.trans hbad) (by simp)
          · exact hno hst
    · exact iff_of_true ⟨_, _, rdWrite_invalid (Bool.eq_false_iff.mpr hval)⟩ (Or.inl (Bool.eq_false_iff.mpr hval))

/-- A callback that does not check refuses the path only if it returns early. -/
theorem refuses_iff_early {early : Prop} (hg : Guarded d op ↔ early)
    (hret : early → ∃ r, exec d op = some (d, r) ∧ r.code < 0) (hnull : ¬ early → exec d op = none) :
    Refuses d op ↔ Guarded d op := by
  rw [hg]
  constructor
  · intro hr
    by_contra hno
    exact not_refuses_of_none (hnull hno) hr
  · intro h
    obtain ⟨r, hex, hcode⟩ := hret h
    exact refuses_of_error hex hcode

/-- Without it, the callbacks that check refuse the path, and the others do so
only if they return before they look. -/
theorem exec_lost (hl : Lost d op.path) (hop : ∀ path, op ≠ .statfs path) : Refuses d op ↔ Guarded d op := by
  have hpar := hl.not_parentFound
  have hget : getRdFile d op.path = none := hl.getRdFile
  have hchecks : (∃ r, exec d op = some (d, r) ∧ r.code < 0) → Refuses d op := by
    intro h
    obtain ⟨r, hex, hcode⟩ := h
    exact refuses_of_error hex hcode
  cases op with
  | create path => exact iff_of_true (hchecks hl.rdCreate) trivial
  | mkdir path => exact iff_of_true (hchecks hl.rdMkdir) trivial
  | unlink path =>
    have hk : FreesKnown d (.unlink path) := fun p f _ hp => absurd (hget.symm.trans hp) (by simp)
    exact iff_of_true (hchecks hl.rdUnlink) hk
  | getattr path => exact iff_of_true (hchecks hl.rdGetattr) trivial
  | readdir path => exact iff_of_true (hchecks hl.rdReaddir) trivial
  | opendir path =>
    simp only [Op.path] at hget
    have hg : Guarded d (.opendir path) ↔ path = rootName := or_iff_left hpar
    apply refuses_iff_early hg
    · intro hroot
      exact absurd hroot hl.ne_root
    · intro hne
      simp [exec, rdOpendir, hne, hget]
  | rmdir path =>
    simp only [Op.path] at hget
    have hg : Guarded d (.rmdir path) ↔ path = rootName := or_iff_left fun h => hpar h.1
    apply refuses_iff_early hg
    · intro hroot
      exact absurd hroot hl.ne_root
    · intro hne
      simp [exec, rdRmdir, hne, hget]
  | «open» path flags =>
    simp only [Op.path] at hget
    have hg : Guarded d (.open path flags) ↔ validPath path = false := or_iff_left hpar
    apply refuses_iff_early hg
    · intro hval
      exact ⟨.ofCode (-enoent), by simp [exec, rdOpen, hval], by decide⟩
    · intro hval
      simp [exec, rdOpen, hval, hget]
  | flush path =>
    simp only [Op.path] at hget
    have hg : Guarded d (.flush path) ↔ validPath path = false := or_iff_left hpar
    apply refuses_iff_early hg
    · intro hval
      exact ⟨.ofCode (-enoent), by simp [exec, rdFlush, hval], by decide⟩
    · intro hval
      simp [exec, rdFlush, hval, hget]
  | read path size offset =>
    simp only [Op.path] at hget
    have hg : Guarded d (.read path size offset) ↔ validPath path = false := or_iff_left hpar
    apply refuses_iff_early hg
    · intro hval
      exact ⟨.ofCode (-enoent), by simp [exec, rdRead, hval], by decide⟩
    · intro hval
      simp [exec, rdRead, hval, hget]
  | write path buffer offset =>
    simp only [Op.path] at hget
    have hg : Guarded d (.write path buffer offset) ↔ validPath path = false := or_iff_left fun h => hpar h.1
    apply refuses_iff_early hg
    · intro hval
      exact ⟨.ofCode (-enoent), rdWrite_invalid hval, by decide⟩
    · intro hval
      exact rdWrite_none (Bool.eq_true_of_not_eq_false hval) hget
  | statfs path => exact absurd rfl (hop path)

/-- **Which callbacks check the parent of their path.** In every state that any
requests bring about, a callback completes, and refuses a path whose parent is
not there, exactly if it is guarded. -/
theorem parents_checked_iff {m : ℤ} (hm : Capacity m) (hd : (requests m).Reachable d) (hreq : Request op)
    (hop : ∀ path, op ≠ .statfs path) : Refuses d op ↔ Guarded d op := by
  obtain ⟨hs, hl⟩ := ledger_reachable hm hd
  rcases parent_cases hs.shape hreq.absolute with ⟨q, g, name, h⟩ | h
  · exact exec_found hs hl.bounded hreq h.parentFound
  · exact exec_lost h hop

end Guard

/-- **A missing parent is followed**: `rd_flush` of `/a/b` on an empty disk. -/
theorem flush_without_parent : Capacity (2 ^ 20) ∧ (requests (2 ^ 20)).Reachable (Disk.start (2 ^ 20) zeroed) ∧
    Request (.flush "/a/b".toList) ∧ ¬ Refuses (Disk.start (2 ^ 20) zeroed) (.flush "/a/b".toList) :=
  ⟨megabyte, ⟨_, _, ⟨_, rfl⟩, .nil _⟩, ⟨⟨_, rfl⟩, nofun, nofun⟩, not_refuses_of_none rfl⟩

theorem parents_checked_iff_flush : Capacity (2 ^ 20) ∧ (requests (2 ^ 20)).Reachable (Disk.start (2 ^ 20) zeroed) ∧
    (Refuses (Disk.start (2 ^ 20) zeroed) (.flush "/a/b".toList) ↔
      Guarded (Disk.start (2 ^ 20) zeroed) (.flush "/a/b".toList)) := by
  have hd : (requests (2 ^ 20)).Reachable (Disk.start (2 ^ 20) zeroed) := ⟨_, _, ⟨_, rfl⟩, .nil _⟩
  exact ⟨megabyte, hd, parents_checked_iff megabyte hd ⟨⟨_, rfl⟩, nofun, nofun⟩ nofun⟩

end Ramdisk
end Csc501

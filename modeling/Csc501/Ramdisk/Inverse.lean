/-
# What is made can be taken back

`rd_rmdir` behind `rd_mkdir`, and `rd_unlink` behind `rd_create` and any writes,
give the disk back as it was, if they return: the same files in the same order,
with the same contents, and the same count. The file made is the last of its
directory and the only one of its name (`Beside`), so a look-up leads to it and
nothing else is taken out; and what the writes have added to `current_bytes` is its
size, which `rd_unlink` subtracts. Only the heap has moved on: the address that was
used is not used again.

They return exactly if `malloc` left a `NULL` where the data of the new file are, or a
write has set them: one at its start that stores something and for which there is room
(`create_delete_inverse_iff`).

Key definitions: `Beside`, `Draft`, `writes`, `SetsData`.
Key theorems: `Beside.found`, `Beside.removed`, `Draft.write`, `writes_draft`, `create_delete_inverse_iff`.
-/
import Csc501.Ramdisk.Frame
import Csc501.Ramdisk.Parents

namespace Csc501
namespace Ramdisk

open Lib

/-- The disk `d'` is `d` with the file `f` added to the directory `g` at `q`; its
`current_bytes` may be another. -/
structure Beside (d : Disk) (q : ℕ) (g f : RdFile) (d' : Disk) : Prop where
  heap : d'.heap = (addFile d q g f).heap
  next : d'.next = d.next + 1
  maxBytes : d'.maxBytes = d.maxBytes
  stale : d'.stale = d.stale

/-- Requests to write to a file, each with its bytes and its offset. -/
def writes (path : Text) : List (List UInt8 × ℤ) → Disk → Option (Disk × List Reply)
  | [], d => some (d, [])
  | w :: ws, d => do
    let (d', r) ← rdWrite d path w.1 w.2
    let (d'', rs) ← writes path ws d'
    some (d'', r :: rs)

/-- A request that sets the data of a new file: it is at its start and stores
something, for which there is room. -/
def SetsData (d : Disk) (w : List UInt8 × ℤ) : Prop :=
  w.2 = 0 ∧ w.1 ≠ [] ∧ d.currentBytes + w.1.length ≤ d.maxBytes

section Beside

variable {d d' : Disk} {path name : Text} {q : ℕ} {g f : RdFile}

theorem Beside.directory (hb : Beside d q g f d') : d'.heap q = some { g with files := g.files ++ [d.next] } := by
  rw [hb.heap, addFile_heap, if_pos rfl]

theorem Beside.file (hb : Beside d q g f d') (hs : Shape d) (hq : d.heap q = some g) :
    d'.heap d.next = some { f with parent := some q } := by
  rw [hb.heap, addFile_heap, if_neg (hs.lt_next hq).ne', if_pos rfl]

/-- The parent of the path is where it was. -/
theorem Beside.found (hb : Beside d q g f d') (hs : Shape d) (h : Found d path q g f.name) (habs : Absolute path)
    (hne : path ≠ rootName) : Found d' path q { g with files := g.files ++ [d.next] } f.name := by
  obtain ⟨cs, hcs, hat⟩ := h.components hs habs hne
  obtain ⟨s, rfl⟩ := habs
  obtain ⟨names, count, h1, h2, h3⟩ := h.dirs
  have hframe : Frame d d' (cs ++ [f.name]) := frame_addFile hs h.heap hat hb.heap
  refine ⟨⟨names, count, h1, ?_, h3⟩, hb.directory, h.dir⟩
  rw [getParentDirectory, hframe.descend hs .root]
  · exact h2
  · -- the names on the way are too few to begin with those of the file
    rw [getDirs_absolute] at h1
    obtain ⟨rfl, rfl⟩ := Prod.mk.inj (Option.some.inj h1)
    rw [components, if_neg hne, List.tail_cons] at hcs
    intro hpre
    have hlen := hpre.length_le
    rw [hcs] at hlen
    simp at hlen

/-- The file added is found, if there was none of its name. -/
theorem Beside.getFile (hb : Beside d q g f d') (hs : Shape d) (hq : d.heap q = some g)
    (hnone : getFile d f.name g.files = some none) :
    Ramdisk.getFile d' f.name (g.files ++ [d.next]) = some (some d.next) := by
  have hnew := hb.file hs hq
  have hold : ∀ p ∈ g.files, ∃ e, d'.heap p = some e ∧ e.name ≠ f.name := by
    intro p hp
    rcases getFile_cases f.name (hs.live hq) with ⟨-, hall⟩ | ⟨x, e, hx, -⟩
    · obtain ⟨e, he⟩ := hs.live hq p hp
      have hpn : p ≠ d.next := (hs.lt_next he).ne
      rw [hb.heap, addFile_heap]
      split_ifs with hpq
      · rw [hpq, hq] at he
        obtain rfl := Option.some.inj he
        exact ⟨_, rfl, hall p hp g (hpq ▸ hq)⟩
      · exact ⟨e, he, hall p hp e he⟩
    · rw [hnone] at hx
      exact absurd hx (by simp)
  clear hnone
  generalize g.files = l at hold
  induction l with
  | nil => simp [Ramdisk.getFile, hnew]
  | cons p l ih =>
    obtain ⟨e, he, hn⟩ := hold p List.mem_cons_self
    simp only [List.cons_append, Ramdisk.getFile, he, Option.bind_eq_bind, Option.bind_some, if_neg (Ne.symm hn)]
    exact ih fun x hx => hold x (List.mem_cons_of_mem p hx)

/-- **Taking the file out** leaves what there was. -/
theorem Beside.removed (hb : Beside d q g f d') (hs : Shape d) (hq : d.heap q = some g) :
    removeFile d' q { g with files := g.files ++ [d.next] } d.next =
      { d with currentBytes := d'.currentBytes, next := d.next + 1 } := by
  have hqn : q ≠ d.next := (hs.lt_next hq).ne
  have hnot : d.next ∉ g.files := by
    intro hm
    obtain ⟨e, he⟩ := hs.live hq d.next hm
    exact absurd (hs.lt_next he) (lt_irrefl _)
  have hheap : (removeFile d' q { g with files := g.files ++ [d.next] } d.next).heap = d.heap := by
    funext x
    rw [removeFile_heap]
    split_ifs with h1 h2
    · rw [h1, hs.fresh _ le_rfl]
    · rw [h2, hq, List.erase_append_right _ hnot]
      simp
    · rw [hb.heap, addFile_heap, if_neg h2, if_neg h1]
  rw [removeFile] at hheap ⊢
  rw [Disk.mk.injEq]
  exact ⟨hb.maxBytes, rfl, hheap, hb.next, hb.stale⟩

end Beside

/-! ### A file that is being written -/

/-- The file was added to `d` and has been written to since; what it holds is counted. -/
structure Draft (d : Disk) (q : ℕ) (g f : RdFile) (d' : Disk) : Prop where
  beside : Beside d q g f d'
  regular : f.type = .regular
  parent : f.parent = some q
  counted : d'.currentBytes = d.currentBytes + f.size

section Draft

variable {d d' : Disk} {path : Text} {q : ℕ} {g f : RdFile} {buffer : List UInt8} {offset : ℤ}

theorem Draft.target (hd : Draft d q g f d') (hs : Shape d) (h : Found d path q g f.name) (habs : Absolute path)
    (hval : validPath path = true) (hnone : getFile d f.name g.files = some none) : Target d' path d.next f := by
  have hne : path ≠ rootName := by
    rintro rfl
    exact absurd hval (by decide)
  refine ⟨hval, ?_, ?_, hd.regular⟩
  · rw [(hd.beside.found hs h habs hne).getRdFile]
    exact hd.beside.getFile hs h.heap hnone
  · rw [hd.beside.file hs h.heap, ← hd.parent]

/-- The file with other contents. -/
theorem Draft.set (hd : Draft d q g f d') (hs : Shape d) (hq : d.heap q = some g) (bs : List UInt8) (n : ℕ) :
    Draft d q g { f with data := some bs, size := n }
      { d'.setFile d.next { f with data := some bs, size := n } with currentBytes := d.currentBytes + n } := by
  refine ⟨⟨?_, hd.beside.next, hd.beside.maxBytes, hd.beside.stale⟩, hd.regular, hd.parent, rfl⟩
  funext x
  show (d'.setFile d.next _).heap x = _
  rw [setFile_heap, hd.beside.heap, addFile_heap, addFile_heap]
  have hqn : q ≠ d.next := (hs.lt_next hq).ne
  split_ifs with h1 h2
  · exact absurd (h2.symm.trans h1) hqn
  · rw [← hd.parent]
  · rfl
  · rfl

/-- **A request to write**, whatever is answered; it sets the data of the file if they
were set before, or if it makes the new file grow. -/
theorem Draft.write (hd : Draft d q g f d') (hs : Shape d) (hs' : Sound d') (hb' : Bounded d')
    (h : Found d path q g f.name) (habs : Absolute path) (hval : validPath path = true)
    (hnone : getFile d f.name g.files = some none) (hlen : buffer.length ≤ maxWrite) (hlo : -2 ^ 63 ≤ offset)
    (hhi : offset < 2 ^ 63) :
    ∃ d'' r f', rdWrite d' path buffer offset = some (d'', r) ∧ Draft d q g f' d'' ∧ f'.name = f.name ∧
      (f'.data = none ↔ f.data = none ∧ ¬ SetsData d (buffer, offset)) := by
  have ht := hd.target hs h habs hval hnone
  have hsize := hb' d.next f ht.heap hd.regular
  have hc := hd.counted
  have hmax := hd.beside.maxBytes
  have hunset : f.data = none → f.size = 0 := by
    intro hdata
    by_contra hpos
    obtain ⟨bs, hbs, -⟩ := hs'.shape.stored d.next f ht.heap hd.regular (Nat.pos_of_ne_zero hpos)
    rw [hdata] at hbs
    exact absurd hbs (by simp)
  -- nothing is stored, in the three cases in which the file stays as it is
  have hsame : (f.data = none → ¬ SetsData d (buffer, offset)) →
      (f.data = none ↔ f.data = none ∧ ¬ SetsData d (buffer, offset)) := fun hno => ⟨fun hn => ⟨hn, hno hn⟩, And.left⟩
  by_cases hout : offset < 0 ∨ (f.size : ℤ) < offset
  · refine ⟨d', _, f, rdWrite_beyond ht hsize hlo hhi hout, hd, rfl, hsame fun _ hset => ?_⟩
    have h0 : offset = 0 := hset.1
    omega
  · rw [not_or, not_lt, not_lt] at hout
    obtain ⟨k, rfl⟩ := Int.eq_ofNat_of_zero_le hout.1
    have hk : k ≤ f.size := by exact_mod_cast hout.2
    rw [rdWrite_eq hs'.shape ht hsize hlen hk]
    split_ifs with h1 h2 h3
    · refine ⟨d', _, f, rfl, hd, rfl, hsame fun hn hset => ?_⟩
      have h0 := hunset hn
      have hroom : d.currentBytes + buffer.length ≤ d.maxBytes := hset.2.2
      omega
    · have hset := hd.set hs h.heap (grown (contents f) buffer k) (k + buffer.length)
      have hcount : d.currentBytes + (k + buffer.length : ℕ) =
          d'.currentBytes + (((k + buffer.length : ℕ) : ℤ) - f.size) := by omega
      rw [hcount] at hset
      refine ⟨_, _, _, rfl, hset, rfl, iff_of_false (by simp) ?_⟩
      rintro ⟨hn, hno⟩
      have h0 := hunset hn
      refine hno ⟨by show (k : ℤ) = 0; omega, ?_, by show d.currentBytes + (buffer.length : ℤ) ≤ d.maxBytes; omega⟩
      rintro (rfl : buffer = [])
      simp only [List.length_nil] at h1
      omega
    · exact ⟨d', _, f, rfl, hd, rfl, hsame fun _ hset => hset.2.1 h3⟩
    · have hset := hd.set hs h.heap (splice (contents f) buffer k) f.size
      rw [← hc] at hset
      refine ⟨_, _, _, rfl, hset, rfl, iff_of_false (by simp) ?_⟩
      rintro ⟨hn, -⟩
      have h0 := hunset hn
      have hlen0 := List.length_pos_iff.mpr h3
      omega

/-- **Any requests to write.** -/
theorem writes_draft {m : ℤ} {name : Text} (hm : Capacity m) (hs : Shape d) (h : Found d path q g name)
    (habs : Absolute path) (hval : validPath path = true) (hnone : getFile d name g.files = some none) :
    ∀ {ws : List (List UInt8 × ℤ)} {d' : Disk} {e : RdFile}, e.name = name → Draft d q g e d' →
      (requests m).Reachable d' → (∀ w ∈ ws, w.1.length ≤ maxWrite ∧ -2 ^ 63 ≤ w.2 ∧ w.2 < 2 ^ 63) →
      ∃ d'' rs e', writes path ws d' = some (d'', rs) ∧ Draft d q g e' d'' ∧ e'.name = name ∧
        (requests m).Reachable d'' ∧ (e'.data = none ↔ e.data = none ∧ ∀ w ∈ ws, ¬ SetsData d w)
  | [], d', e, hname, hd, hr, _ => ⟨d', [], e, rfl, hd, hname, hr, by simp⟩
  | w :: ws, d', e, hname, hd, hr, hws => by
    obtain ⟨hs', hl'⟩ := ledger_reachable hm hr
    obtain ⟨hlen, hlo, hhi⟩ := hws w List.mem_cons_self
    obtain ⟨d₁, r, e₁, hw, hd₁, hname₁, hdata₁⟩ := hd.write hs hs' hl'.bounded (hname ▸ h) habs hval
      (hname ▸ hnone) hlen hlo hhi
    have hstep : (requests m).step d' (.write path w.1 w.2, r) d₁ := by
      refine ⟨⟨habs, ?_, by simp⟩, hw⟩
      rintro p b o ⟨⟩
      exact ⟨hlen, hlo, hhi⟩
    obtain ⟨d₂, rs, e₂, hws₂, hd₂, hname₂, hr₂, hdata₂⟩ := writes_draft hm hs h habs hval hnone (hname₁.trans hname)
      hd₁ (hr.step hstep) fun x hx => hws x (List.mem_cons_of_mem w hx)
    refine ⟨d₂, r :: rs, e₂, ?_, hd₂, hname₂, hr₂, ?_⟩
    · simp only [writes, hw, hws₂, Option.bind_eq_bind, Option.bind_some]
    · rw [hdata₂, hdata₁, List.forall_mem_cons, and_assoc]

end Draft

/-! ### Back again -/

section Back

variable {d d' : Disk} {path name : Text} {q : ℕ} {g f : RdFile}

/-- `rd_rmdir` of a directory that was just made. -/
theorem Beside.rdRmdir (hb : Beside d q g f d') (hs : Shape d) (hs' : Shape d') (h : Found d path q g f.name)
    (habs : Absolute path) (hne : path ≠ rootName) (hnone : Ramdisk.getFile d f.name g.files = some none)
    (hdir : f.type = .directory) (hempty : f.files = []) (hdata : f.data = none)
    (hcount : d'.currentBytes = d.currentBytes + directoryBytes) :
    rdRmdir d' path = if d.stale d.next = false then some ({ d with next := d.next + 1 }, .ofCode 0) else none := by
  have hk : Disposable d' d.next { f with parent := some q } ↔ d.stale d.next = false := by
    rw [Disposable, hb.stale]
    exact ⟨fun h => h hdata, fun h _ => h⟩
  rw [(hb.found hs h habs hne).rmdir_eq hs' hne (hb.getFile hs h.heap hnone) (hb.file hs h.heap) hdir hempty,
    hb.removed hs h.heap, hcount, add_sub_cancel_right]
  simp only [hk]

/-- `rd_unlink` of a file that was made and written to. -/
theorem Draft.rdUnlink (hd : Draft d q g f d') (hs : Shape d) (hs' : Shape d') (h : Found d path q g f.name)
    (habs : Absolute path) (hne : path ≠ rootName) (hnone : getFile d f.name g.files = some none) :
    rdUnlink d' path = if f.data = none → d.stale d.next = false then some ({ d with next := d.next + 1 }, .ofCode 0)
      else none := by
  have hb := hd.beside
  have hk : Disposable d' d.next { f with parent := some q } ↔ (f.data = none → d.stale d.next = false) := by
    rw [Disposable, hb.stale]
  rw [(hb.found hs h habs hne).unlink_eq hs' hne (hb.getFile hs h.heap hnone) (hb.file hs h.heap),
    hb.removed hs h.heap, hd.counted, add_sub_cancel_right]
  simp only [hk]

end Back

/-- **Making and taking back are inverse**, as long as no pointer is freed that was never
set. In every state that requests bring about, a directory made leaves, taken back, the
disk as it was, but for the address it had, exactly if `malloc` left a `NULL` in the place
of its data; and a file made and written to in any way does so exactly if that is so, or
one of the writes made it grow. -/
theorem create_delete_inverse_iff {m : ℤ} {d : Disk} {path : Text} (hm : Capacity m) (hd : (requests m).Reachable d)
    (habs : Absolute path) (hne : path ≠ rootName) (hpar : ParentFound d path) (hnew : getRdFile d path = some none) :
    (∀ d₁ r, rdMkdir d path = some (d₁, r) → r.code = 0 →
      (rdRmdir d₁ path = some ({ d with next := d.next + 1 }, .ofCode 0) ↔ d.stale d.next = false)) ∧
    (endsWith path rootName = false → ∃ d₁, rdCreate d path = some (d₁, .ofCode 0) ∧
      ∀ ws : List (List UInt8 × ℤ), (∀ w ∈ ws, w.1.length ≤ maxWrite ∧ -2 ^ 63 ≤ w.2 ∧ w.2 < 2 ^ 63) →
        ∃ d₂ rs, writes path ws d₁ = some (d₂, rs) ∧
          (rdUnlink d₂ path = some ({ d with next := d.next + 1 }, .ofCode 0) ↔
            d.stale d.next = false ∨ ∃ w ∈ ws, SetsData d w)) := by
  have hs := (ledger_reachable hm hd).1.shape
  obtain ⟨q, g, name, hf⟩ := hpar.found hs habs
  have hnone : getFile d name g.files = some none := hf.getRdFile ▸ hnew
  refine ⟨?_, ?_⟩
  · intro d₁ r hmk hcode
    have hstep : (requests m).step d (.mkdir path, r) d₁ := ⟨⟨habs, by simp, by simp⟩, hmk⟩
    have hs₁ := (ledger_reachable hm (hd.step hstep)).1.shape
    rw [hf.rdMkdir, if_neg hne, hnone] at hmk
    split_ifs at hmk with hroom
    · obtain ⟨rfl, rfl⟩ := Prod.mk.inj (Option.some.inj hmk)
      exact absurd hcode (by decide)
    · obtain ⟨hd₁, -⟩ := Prod.mk.inj (Option.some.inj hmk)
      have hb : Beside d q g (createRdFile name g.name .directory) d₁ := by
        rw [← hd₁]
        exact ⟨rfl, rfl, rfl, rfl⟩
      have hcount : d₁.currentBytes = d.currentBytes + directoryBytes := by rw [← hd₁]
      rw [hb.rdRmdir hs hs₁ hf habs hne hnone rfl rfl rfl hcount]
      simp
  · intro hslash
    have hval : validPath path = true := by simp [validPath, hne, hslash]
    have hcreate : rdCreate d path = some (addFile d q g (createRdFile name g.name .regular), .ofCode 0) := by
      rw [hf.rdCreate, if_neg (by simp [hne, hslash])]
    refine ⟨_, hcreate, ?_⟩
    intro ws hws
    have hdraft : Draft d q g { createRdFile name g.name .regular with parent := some q }
        (addFile d q g (createRdFile name g.name .regular)) :=
      ⟨⟨rfl, rfl, rfl, rfl⟩, rfl, rfl, (add_zero _).symm⟩
    have hstep : (requests m).step d (.create path, .ofCode 0) (addFile d q g (createRdFile name g.name .regular)) :=
      ⟨⟨habs, by simp, by simp⟩, hcreate⟩
    obtain ⟨d₂, rs, f, hw, hd₂, hname, hr₂, hdata⟩ :=
      writes_draft hm hs hf habs hval hnone rfl hdraft (hd.step hstep) hws
    have hset : (f.data = none → d.stale d.next = false) ↔ d.stale d.next = false ∨ ∃ w ∈ ws, SetsData d w := by
      have hnew : (createRdFile name g.name .regular).data = none := rfl
      rw [hdata, imp_iff_not_or, or_comm]
      simp [hnew]
    refine ⟨d₂, rs, hw, ?_⟩
    rw [hd₂.rdUnlink hs (ledger_reachable hm hr₂).1.shape (hname ▸ hf) habs hne (hname ▸ hnone), ← hset]
    simp

/-- **What is made cannot be taken back** on a disk in memory that was in use before: a
directory, and a file without bytes in it. -/
theorem not_taken_back : Capacity (2 ^ 20) ∧ (requests (2 ^ 20)).Reachable (Disk.start (2 ^ 20) recycled) ∧
    (∃ d₁, rdMkdir (Disk.start (2 ^ 20) recycled) "/f".toList = some (d₁, .ofCode 0) ∧
      rdRmdir d₁ "/f".toList = none) ∧
    ∃ d₁, rdCreate (Disk.start (2 ^ 20) recycled) "/f".toList = some (d₁, .ofCode 0) ∧
      writes "/f".toList [] d₁ = some (d₁, []) ∧ rdUnlink d₁ "/f".toList = none :=
  ⟨megabyte, ⟨_, _, ⟨_, rfl⟩, .nil _⟩, ⟨_, rfl, rfl⟩, _, rfl, rfl, rfl⟩

/-- On an empty disk: a directory, if `malloc` returns a `NULL` for its data; and, whatever
it returns, a file with two writes of which the second is refused. -/
theorem create_delete_inverse_iff_empty :
    (∃ d₁, rdMkdir (Disk.start (2 ^ 20) zeroed) "/f".toList = some (d₁, .ofCode 0) ∧
      rdRmdir d₁ "/f".toList = some ({ Disk.start (2 ^ 20) zeroed with next := 2 }, .ofCode 0)) ∧
    ∃ d₁ d₂ rs, rdCreate (Disk.start (2 ^ 20) recycled) "/f".toList = some (d₁, .ofCode 0) ∧
      writes "/f".toList [([0, 1], 0), ([2], 3)] d₁ = some (d₂, rs) ∧
      rdUnlink d₂ "/f".toList = some ({ Disk.start (2 ^ 20) recycled with next := 2 }, .ofCode 0) := by
  have habs : Absolute "/f".toList := ⟨_, rfl⟩
  have hd : ∀ stale, (requests (2 ^ 20)).Reachable (Disk.start (2 ^ 20) stale) :=
    fun stale => ⟨_, _, ⟨stale, rfl⟩, .nil _⟩
  obtain ⟨hdir, -⟩ := create_delete_inverse_iff megabyte (hd zeroed) habs (by decide) ⟨_, _, root, rfl, rfl⟩ rfl
  obtain ⟨-, hfile⟩ := create_delete_inverse_iff megabyte (hd recycled) habs (by decide) ⟨_, _, root, rfl, rfl⟩ rfl
  obtain ⟨d₁, hcreate, hall⟩ := hfile rfl
  obtain ⟨d₂, rs, hw, hu⟩ := hall [([0, 1], 0), ([2], 3)] (by decide)
  have hset : SetsData (Disk.start (2 ^ 20) recycled) ([0, 1], 0) := ⟨rfl, by decide, by decide⟩
  exact ⟨⟨_, rfl, (hdir _ _ rfl rfl).mpr rfl⟩, d₁, d₂, rs, hcreate, hw,
    hu.mpr (Or.inr ⟨_, List.mem_cons_self, hset⟩)⟩

end Ramdisk
end Csc501

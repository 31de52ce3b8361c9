/-
# The disk can be emptied

No file is stuck, if what is freed with it may be freed: its data were set, or `malloc`
left a `NULL` there. Then, whatever was made and written on the disk by orderly calls, some
file or some directory can be removed next, each removal takes away one file, and when none
can be removed any more there is nothing left but the root, and `current_bytes` is zero
again. The order of the removals does not matter. If one file may not be freed, no removals
empty the disk (`disk_emptied`).

The file with the largest address has no files below it, since a parent is older than
its files. Its path leads to it, as all names on the way are different and have no slash.

Key definitions: `Named`, `removals`, `fileCount`, `Emptied`, `Freeable`.
Key theorems: `At.descend_eq`, `Outcome.named`, `removal_takes`, `removal_possible`, `removals_countdown`,
`disk_emptied`.
-/
import Csc501.Lib.Countdown
import Csc501.Ramdisk.Frame

namespace Csc501
namespace Ramdisk

open Lib

/-- Every file but the root has a name without a slash. -/
def Named (d : Disk) : Prop := ∀ p f, d.heap p = some f → p ≠ root → IsName f.name

/-- The files and directories on the disk, without the root. -/
def fileCount (d : Disk) : ℕ := ((Finset.range d.next).filter fun p => p ≠ root ∧ (typeAt d p).isSome).card

/-- Nothing is on the disk but the root. -/
structure Emptied (d : Disk) : Prop where
  gone : ∀ p, p ≠ root → d.heap p = none
  root : filesAt d root = []
  bytes : d.currentBytes = 0

/-- Every file but the root may be freed: its data were set, or `malloc` left a `NULL`
there. -/
def Freeable (d : Disk) : Prop := ∀ p f, d.heap p = some f → p ≠ root → Disposable d p f

/-- The calls that remove a file or a directory, as far as they succeed. -/
def removals (maxBytes : ℤ) : Lts Disk (Op × Reply) where
  init d := (orderly maxBytes).Reachable d
  step d e d' := (orderly maxBytes).step d e d' ∧ (∃ path, e.1 = .unlink path ∨ e.1 = .rmdir path) ∧ e.2.code = 0

section Paths

variable {d d' : Disk} {p q : ℕ} {f g : RdFile} {cs : List Text} {n : Text}

theorem descend_append (d : Disk) : ∀ (l l' : List Text) (q : ℕ), descend d q (l ++ l') =
    (descend d q l).bind fun found => match found with
      | none => some none
      | some p => descend d p l'
  | [], l', q => rfl
  | n :: l, l', q => by
    simp only [List.cons_append, descend, Option.bind_eq_bind]
    cases d.heap q with
    | none => rfl
    | some g =>
      rw [Option.bind_some, Option.bind_some]
      rcases getFile d n g.files with _ | _ | p
      · rfl
      · rfl
      · simp only [Option.bind_some]
        cases d.heap p with
        | none => rfl
        | some f =>
          rw [Option.bind_some, Option.bind_some]
          split_ifs
          · rfl
          · exact descend_append d l l' p

/-- In a directory a name leads to the file that has it. -/
theorem getFile_of_mem (hs : Shape d) (hd : Distinct d) (hq : d.heap q = some g) (hm : p ∈ g.files) :
    getFile d (nameAt d p) g.files = some (some p) := by
  rcases getFile_cases (nameAt d p) (hs.live hq) with ⟨-, hnone⟩ | ⟨x, f, hg, hx, hf, hn⟩
  · obtain ⟨f, hf⟩ := hs.live hq p hm
    exact absurd (nameAt_some hf).symm (hnone p hm f hf)
  · have hdq := hd q
    rw [filesAt_some hq] at hdq
    obtain rfl : x = p := List.inj_on_of_nodup_map hdq hx hm ((nameAt_some hf).trans hn)
    exact hg

/-- **The names of a directory lead to it.** -/
theorem At.descend_eq (hs : Shape d) (hd : Distinct d) (h : At d cs q) (hq : d.heap q = some g)
    (hdir : g.type = .directory) : Ramdisk.descend d Ramdisk.root cs = some (some q) := by
  induction h generalizing g with
  | root => rfl
  | @file cs q' p hat hm ih =>
    obtain ⟨g', hg', hm'⟩ := mem_filesAt hm
    have hdir' : g'.type = .directory := by
      by_contra hne
      have hreg : g'.type = .regular := by cases h : g'.type <;> simp_all
      rw [hs.leaf q' g' hg' hreg] at hm'
      exact absurd hm' List.not_mem_nil
    rw [descend_append, ih hg' hdir']
    simp [Ramdisk.descend, hg', getFile_of_mem hs hd hg' hm', hq, hdir]

/-- Every file has a path. -/
theorem Tree.has_path (ht : Tree d) : ∀ p f, d.heap p = some f → ∃ cs, At d cs p := by
  intro p
  induction p using Nat.strong_induction_on with
  | _ p ih =>
    intro f hp
    by_cases hr : p = Ramdisk.root
    · exact ⟨[], hr ▸ .root⟩
    · obtain ⟨q, g, -, hq, hm⟩ := ht.up p f hp hr
      obtain ⟨-, -, -, hlt⟩ := ht.down q g p hq hm
      obtain ⟨cs, hcs⟩ := ih q hlt g hq
      exact ⟨_, hcs.file (by rwa [filesAt_some hq])⟩

theorem At.names (hs : Shape d) (hN : Named d) (h : At d cs p) : ∀ c ∈ cs, IsName c := by
  induction h with
  | root => simp
  | @file cs q p _ hm ih =>
    intro c hc
    rcases List.mem_append.mp hc with hc | hc
    · exact ih c hc
    · obtain rfl : c = nameAt d p := by simpa using hc
      obtain ⟨f, hf, -⟩ := hs.file hm
      rw [nameAt_some hf]
      exact hN p f hf (hs.file_ne_root hm)

/-- The parent of a file is found by the names on its path. -/
theorem At.located (hs : Shape d) (hd : Distinct d) (hN : Named d) (h : At d cs q) (hm : p ∈ filesAt d q) :
    ∃ g, d.heap q = some g ∧ p ∈ g.files ∧ (∀ c ∈ cs ++ [nameAt d p], IsName c) ∧ Located d cs (nameAt d p) q g := by
  obtain ⟨g, hq, hm'⟩ := mem_filesAt hm
  have hnames := (h.file hm).names hs hN
  have hdir : g.type = .directory := by
    cases htype : g.type with
    | directory => rfl
    | regular =>
      rw [hs.leaf q g hq htype] at hm'
      exact absurd hm' List.not_mem_nil
  refine ⟨g, hq, hm', hnames, ⟨⟨cs ++ [nameAt d p], cs.length, ?_, ?_, by simp⟩, hq, hdir⟩, h⟩
  · rw [getDirs_pathText (by simp) hnames]
    simp
  · rw [getParentDirectory, List.take_left]
    exact h.descend_eq hs hd hq hdir

end Paths

/-! ### What stays named -/

section Names

variable {d d' : Disk} {op : Op} {m : ℤ} {stale : ℕ → Bool} {e : Op × Reply}

theorem named_start (m : ℤ) (stale : ℕ → Bool) : Named (Disk.start m stale) := by
  intro p f hp hr
  simp [Disk.start, hr] at hp

/-- A call leaves all names without a slash, if its path is normalised. -/
theorem Outcome.named (h : Outcome d op d') (hN : Named d)
    (hop : ∃ cs, op.path = pathText cs ∧ ∀ c ∈ cs, IsName c) : Named d' := by
  cases h with
  | same => exact hN
  | @set q p g f f' name b hne hfound hfile hp htype hname =>
    intro x y hx hr
    have hx : (d.setFile p f').heap x = some y := hx
    rw [setFile_heap] at hx
    split_ifs at hx with hxp
    · obtain rfl := Option.some.inj hx
      rw [hname]
      exact hN p f hp (hxp ▸ hr)
    · exact hN x y hx hr
  | @add q g name type b hne hfound =>
    have hIs : IsName name := by
      obtain ⟨cs, hpath, hnames⟩ := hop
      obtain ⟨names, count, h1, -, h3⟩ := hfound.dirs
      have hcs : cs ≠ [] := by
        rintro rfl
        exact hne hpath
      rw [hpath, getDirs_pathText hcs hnames] at h1
      obtain ⟨rfl, rfl⟩ := Prod.mk.inj (Option.some.inj h1)
      exact hnames name (List.mem_of_getElem? h3)
    intro x y hx hr
    have hx : (addFile d q g (createRdFile name g.name type)).heap x = some y := hx
    rw [addFile_heap] at hx
    split_ifs at hx with hxq hxn
    · obtain rfl := Option.some.inj hx
      exact hN q g hfound.heap (hxq ▸ hr)
    · obtain rfl := Option.some.inj hx
      exact hIs
    · exact hN x y hx hr
  | @remove q p g name b hne hfound =>
    intro x y hx hr
    have hx : (removeFile d q g p).heap x = some y := hx
    rw [removeFile_heap] at hx
    split_ifs at hx with hxp hxq
    · obtain rfl := Option.some.inj hx
      exact hN q g hfound.heap (hxq ▸ hr)
    · exact hN x y hx hr

/-- What holds of the disk under orderly calls. -/
structure Neat (d : Disk) : Prop where
  inv : Inv d
  sound : Sound d
  distinct : Distinct d
  named : Named d
  sim : ∃ a, Sim d a

theorem neat_start (hm : Capacity m) (stale : ℕ → Bool) : Neat (Disk.start m stale) :=
  ⟨inv_start hm stale, sound_start m stale, distinct_start m stale, named_start m stale, _, sim_start m stale⟩

theorem neat_step (h : Neat d) (hst : (orderly m).step d e d') : Neat d' := by
  obtain ⟨ho, hex⟩ := hst
  obtain ⟨a, ha⟩ := h.sim
  have hmatch := sim_step h.inv h.distinct ha ho hex
  have hout := exec_outcome h.sound ho.vfs.absolute hex
  exact ⟨inv_step (m := m) h.inv ⟨ho.vfs, hex⟩, hout.sound h.sound, hmatch.distinct, hout.named h.named ho.normal, _,
    hmatch.sim⟩

theorem neat_run {tr : List (Trans Disk (Op × Reply))} (hm : Capacity m)
    (hr : (orderly m).Run (Disk.start m stale) tr d) : Neat d :=
  Lts.Run.invariant (I := fun _ d => Neat d) (neat_start hm stale) (fun _ _ _ _ _ h hst => neat_step h hst) hr

end Names

/-! ### Removals -/

section Removals

variable {d d' : Disk} {p q : ℕ} {f g : RdFile} {cs : List Text} {n : Text} {m : ℤ} {stale : ℕ → Bool} {e : Op × Reply}

/-- A file without files of its own, that may be freed, was taken out. -/
def TakenOut (d d' : Disk) : Prop :=
  ∃ q g p f b, d.heap q = some g ∧ p ∈ g.files ∧ d.heap p = some f ∧ f.files = [] ∧ Disposable d p f ∧
    d' = { removeFile d q g p with currentBytes := b }

/-- **A removal that succeeds takes away one file.** -/
theorem removal_takes (h : Neat d) (hst : (removals m).step d e d') : TakenOut d d' := by
  obtain ⟨⟨ho, hex⟩, ⟨path, hop⟩, hcode⟩ := hst
  have hs := h.inv.shape
  have hren : e.1.Renames := by rcases hop with hop | hop <;> rw [hop] <;> trivial
  obtain ⟨cs, n, q, g, hpath, hnames, hl⟩ := ho.located hs hren
  have hne := pathText_ne_root (by simp) hnames
  rcases hop with hop | hop
  · obtain rfl : path = pathText (cs ++ [n]) := by rw [← hpath, hop]; rfl
    obtain ⟨p, f, hfile, hp, hreg⟩ := ho.vfs.unlink _ hop
    have hg := hl.found.getRdFile.symm.trans hfile
    rw [hop, exec, hl.found.unlink_eq hs hne hg hp] at hex
    split_ifs at hex with hk
    obtain ⟨rfl, -⟩ := Prod.mk.inj (Option.some.inj hex)
    exact ⟨q, g, p, f, _, hl.found.heap, mem_of_getFile hg, hp, hs.leaf p f hp hreg, hk, rfl⟩
  · obtain rfl : path = pathText (cs ++ [n]) := by rw [← hpath, hop]; rfl
    rw [hop, exec] at hex
    -- the three refusals have other codes
    have hrefused : ∀ k : ℤ, k ≠ 0 → exec d (.rmdir (pathText (cs ++ [n]))) ≠ some (d, .ofCode k) := by
      intro k hk heq
      rw [exec, hex] at heq
      obtain ⟨-, hr⟩ := Prod.mk.inj (Option.some.inj heq)
      rw [hr] at hcode
      exact hk hcode
    rcases hl.cases hs h.distinct with ⟨hg, -⟩ | ⟨p, f, hg, hm, hp, -⟩
    · refine absurd ?_ (hrefused (-enoent) (by decide))
      simp [exec, rdRmdir, if_neg hne, hl.found.getRdFile, hg]
    · by_cases hdir : f.type = .directory
      · by_cases hleaf : f.files = []
        · rw [hl.found.rmdir_eq hs hne hg hp hdir hleaf] at hex
          split_ifs at hex with hk
          obtain ⟨rfl, -⟩ := Prod.mk.inj (Option.some.inj hex)
          exact ⟨q, g, p, f, _, hl.found.heap, hm, hp, hleaf, hk, rfl⟩
        · refine absurd ?_ (hrefused (-enotempty) (by decide))
          simp [exec, rdRmdir, if_neg hne, hl.found.getRdFile, hg, hp, hdir, hleaf]
      · refine absurd ?_ (hrefused (-enotdir) (by decide))
        simp [exec, rdRmdir, if_neg hne, hl.found.getRdFile, hg, hp, hdir]

/-- The others may be freed as before. -/
theorem TakenOut.freeable_iff (h : TakenOut d d') : Freeable d' ↔ Freeable d := by
  obtain ⟨q, g, p, f, b, hq, -, hp, -, hk, rfl⟩ := h
  have hheap : ∀ x, (removeFile d q g p).heap x = if x = p then none
      else if x = q then some { g with files := g.files.erase p } else d.heap x := fun x => removeFile_heap d q p x g
  constructor
  · intro hall x y hx hr
    by_cases hxp : x = p
    · subst hxp
      obtain rfl := Option.some.inj (hp.symm.trans hx)
      exact hk
    · by_cases hxq : x = q
      · subst hxq
        obtain rfl := Option.some.inj (hq.symm.trans hx)
        exact hall x { g with files := g.files.erase p } ((hheap x).trans (by rw [if_neg hxp, if_pos rfl])) hr
      · exact hall x y ((hheap x).trans (by rw [if_neg hxp, if_neg hxq, hx])) hr
  · intro hall x y hx hr
    have hx : (removeFile d q g p).heap x = some y := hx
    rw [hheap] at hx
    split_ifs at hx with hxp hxq
    · obtain rfl := Option.some.inj hx
      subst hxq
      exact hall x g hq hr
    · exact hall x y hx hr

/-- One file less. -/
theorem Removed.fileCount (hR : Removed d d' q p) (hs : Shape d) (hnext : d'.next = d.next) :
    fileCount d' + 1 = fileCount d := by
  obtain ⟨f, hp, -⟩ := hs.file hR.mem
  have hmem : p ∈ (Finset.range d.next).filter fun x => x ≠ root ∧ (typeAt d x).isSome := by
    simp [hs.lt_next hp, hs.file_ne_root hR.mem, typeAt, hp]
  have herase : ((Finset.range d'.next).filter fun x => x ≠ root ∧ (typeAt d' x).isSome) =
      ((Finset.range d.next).filter fun x => x ≠ root ∧ (typeAt d x).isSome).erase p := by
    ext x
    simp only [hnext, hR.type x, Finset.mem_filter, Finset.mem_range, Finset.mem_erase]
    by_cases hx : x = p
    · simp [hx]
    · simp [hx]
  rw [Ramdisk.fileCount, Ramdisk.fileCount, herase, Finset.card_erase_add_one hmem]

theorem TakenOut.fileCount (h : TakenOut d d') (hs : Shape d) : fileCount d' + 1 = Ramdisk.fileCount d := by
  obtain ⟨q, g, p, f, b, hq, hm, hp, hleaf, -, rfl⟩ := h
  exact (removed_of_heap hs hq hm hp hleaf rfl).fileCount hs rfl

theorem mem_counted (hs : Shape d) (hp : d.heap p = some f) (hr : p ≠ root) :
    p ∈ (Finset.range d.next).filter fun x => x ≠ root ∧ (typeAt d x).isSome := by
  simp [hs.lt_next hp, hr, typeAt, hp]

/-- The kernel may ask to remove what is there. -/
theorem Located.orderly (hl : Located d cs n q g) (hnames : ∀ c ∈ cs ++ [n], IsName c) {op : Op}
    (hop : op = .unlink (pathText (cs ++ [n])) ∧ IsRegular d (pathText (cs ++ [n])) ∨
      op = .rmdir (pathText (cs ++ [n]))) : Orderly d op := by
  have hpath : op.path = pathText (cs ++ [n]) := by
    rcases hop with ⟨rfl, -⟩ | rfl <;> rfl
  refine ⟨⟨⟨_, hpath⟩, ?_, ?_, ?_, ?_⟩, ⟨_, hpath, hnames⟩, ?_, ?_⟩
  · rw [hpath]
    exact hl.found.parentFound
  · intro path heq
    rcases hop with ⟨rfl, hreg⟩ | rfl
    · cases heq
      exact hreg
    · cases heq
  · intro path b o heq
    rcases hop with ⟨rfl, -⟩ | rfl <;> cases heq
  · intro path k o heq
    rcases hop with ⟨rfl, -⟩ | rfl <;> cases heq
  · intro _
    rw [hpath]
    exact pathText_ne_root (by simp) hnames
  · intro path heq
    rcases hop with ⟨rfl, -⟩ | rfl <;> cases heq

/-- **As long as there is a file, one can be removed**, if all may be freed. -/
theorem removal_possible (h : Neat d) (hfree : Freeable d) (hpos : 0 < fileCount d) :
    ∃ e d', (removals m).step d e d' := by
  have hs := h.inv.shape
  -- the youngest file has no files of its own
  obtain ⟨p, hmem, hmax⟩ := Finset.exists_max_image _ id (Finset.card_pos.mp hpos)
  obtain ⟨-, hr, hlive⟩ := Finset.mem_filter.mp hmem
  obtain ⟨f, hp⟩ : ∃ f, d.heap p = some f := by
    cases hp : d.heap p with
    | none => simp [typeAt, hp] at hlive
    | some f => exact ⟨f, rfl⟩
  have hleaf : f.files = [] := by
    rw [List.eq_nil_iff_forall_not_mem]
    intro c hc
    obtain ⟨f', hc', -, hlt⟩ := hs.down p f c hp hc
    exact absurd (hmax c (mem_counted hs hc' (hs.child_ne_root hp hc))) (not_le.mpr hlt)
  obtain ⟨l, hat⟩ := h.inv.tree.has_path p f hp
  rcases hat.cases_last with ⟨-, rfl⟩ | ⟨cs, q, -, hq, hm⟩
  · exact absurd rfl hr
  · obtain ⟨g, hg, hm', hnames, hl⟩ := hq.located hs h.distinct h.named hm
    have hne := pathText_ne_root (by simp) hnames
    have hk := hfree p f hp hr
    have hget := getFile_of_mem hs h.distinct hg hm'
    cases htype : f.type with
    | regular =>
      have hreg : IsRegular d (pathText (cs ++ [nameAt d p])) :=
        ⟨p, f, hl.found.getRdFile.trans hget, hp, htype⟩
      exact ⟨(.unlink _, .ofCode 0), _,
        ⟨hl.orderly hnames (Or.inl ⟨rfl, hreg⟩), (hl.found.unlink_eq hs hne hget hp).trans (if_pos hk)⟩,
        ⟨_, Or.inl rfl⟩, rfl⟩
    | directory =>
      exact ⟨(.rmdir _, .ofCode 0), _,
        ⟨hl.orderly hnames (Or.inr rfl), (hl.found.rmdir_eq hs hne hget hp htype hleaf).trans (if_pos hk)⟩,
        ⟨_, Or.inr rfl⟩, rfl⟩

theorem removals_countdown (m : ℤ) : (removals m).Countdown (fun d => Neat d ∧ Freeable d) fileCount where
  keeps h hst := ⟨neat_step h.1 hst.1, (removal_takes h.1 hst).freeable_iff.mpr h.2⟩
  counts h hst := (removal_takes h.1 hst).fileCount h.1.inv.shape
  goes h hpos := removal_possible h.1 h.2 hpos

/-- Removals that empty the disk have freed every file on it. -/
theorem freeable_of_emptied (h : Neat d) {tr : List (Trans Disk (Op × Reply))} (hr : (removals m).Run d tr d')
    (he : Emptied d') : Freeable d := by
  have hkept : Neat d' ∧ (Freeable d' ↔ Freeable d) := by
    refine Lts.Run.invariant (I := fun _ s => Neat s ∧ (Freeable s ↔ Freeable d)) ⟨h, Iff.rfl⟩ ?_ hr
    rintro _ s e s' - ⟨hN, hiff⟩ hst
    exact ⟨neat_step hN hst.1, (removal_takes hN hst).freeable_iff.trans hiff⟩
  refine hkept.2.mp fun p f hp hne => ?_
  rw [he.gone p hne] at hp
  exact absurd hp (by simp)

/-- Nothing is left exactly if no file is counted. -/
theorem emptied_iff (h : Neat d) : Emptied d ↔ fileCount d = 0 := by
  have hs := h.inv.shape
  constructor
  · intro he
    rw [fileCount, Finset.card_eq_zero, Finset.filter_eq_empty_iff]
    intro p _ hp
    simp [typeAt, he.gone p hp.1] at hp
  · intro hzero
    have hgone : ∀ p, p ≠ root → d.heap p = none := by
      intro p hr
      cases hp : d.heap p with
      | none => rfl
      | some f =>
        rw [fileCount, Finset.card_eq_zero] at hzero
        exact absurd (mem_counted hs hp hr) (by rw [hzero]; simp)
    refine ⟨hgone, ?_, ?_⟩
    · rw [List.eq_nil_iff_forall_not_mem]
      intro p hm
      obtain ⟨f, hp, -⟩ := hs.file hm
      exact absurd ((hgone p (hs.file_ne_root hm)).symm.trans hp) (by simp)
    · rw [h.inv.counted, used, Finset.sum_eq_zero, Nat.cast_zero]
      intro p _
      by_cases hr : p = root
      · unfold bytesAt
        cases d.heap p with
        | none => rfl
        | some f => exact if_pos hr
      · simp [bytesAt, hgone p hr]

/-- **The disk can be emptied, in any order**, after any orderly calls, exactly if every
file on it may be freed. Then, whatever removals have succeeded, each has taken away exactly
one file or directory; as long as one is left some removal succeeds, and when none does, only
the root is left and all of the capacity is free again. From every state on such removals
lead there. -/
theorem disk_emptied {tr : List (Trans Disk (Op × Reply))} (hm : Capacity m)
    (hr : (orderly m).Run (Disk.start m stale) tr d) :
    ((∃ tr' d', (removals m).Run d tr' d' ∧ Emptied d') ↔ Freeable d) ∧
    (Freeable d →
      (∀ tr' d', (removals m).Run d tr' d' → tr'.length + fileCount d' = fileCount d ∧
        ((removals m).Stuck d' ↔ Emptied d')) ∧
      ∃ tr' d', (removals m).Run d tr' d' ∧ tr'.length = fileCount d ∧ Emptied d') := by
  have hN := neat_run hm hr
  have hC := removals_countdown m
  have hfinish : Freeable d → ∃ tr' d', (removals m).Run d tr' d' ∧ tr'.length = fileCount d ∧ Emptied d' := by
    intro hfree
    obtain ⟨tr', d', hrun, hlen, hstuck⟩ := hC.finish ⟨hN, hfree⟩
    obtain ⟨hI, -⟩ := hC.length ⟨hN, hfree⟩ hrun
    exact ⟨tr', d', hrun, hlen, (emptied_iff hI.1).mpr ((hC.stuck_iff hI).mp hstuck)⟩
  refine ⟨⟨?_, ?_⟩, fun hfree => ⟨?_, hfinish hfree⟩⟩
  · rintro ⟨tr', d', hrun, he⟩
    exact freeable_of_emptied hN hrun he
  · intro hfree
    obtain ⟨tr', d', hrun, -, he⟩ := hfinish hfree
    exact ⟨tr', d', hrun, he⟩
  · intro tr' d' hrun
    obtain ⟨hI, hlen⟩ := hC.length ⟨hN, hfree⟩ hrun
    exact ⟨hlen, (hC.stuck_iff hI).trans (emptied_iff hI.1).symm⟩

/-- After `/a` is made, one removal empties the disk if `malloc` returns zeroed memory; if the
memory was in use before, nothing does. -/
theorem disk_emptied_made : (∃ tr' d', (removals (2 ^ 20)).Run (oneDirectory zeroed) tr' d' ∧ tr'.length = 1 ∧
      Emptied d') ∧
    ¬ ∃ tr' d', (removals (2 ^ 20)).Run (oneDirectory recycled) tr' d' ∧ Emptied d' := by
  have hfree : Freeable (oneDirectory zeroed) := fun _ _ _ _ _ => rfl
  obtain ⟨tr', d', hrun, hlen, he⟩ := ((disk_emptied megabyte (run_made zeroed)).2 hfree).2
  refine ⟨⟨tr', d', hrun, hlen.trans (by decide), he⟩, fun h => ?_⟩
  have hall := (disk_emptied megabyte (run_made recycled)).1.mp h
  exact absurd (hall 1 _ rfl (by decide) rfl) (by decide)

end Removals

end Ramdisk
end Csc501

/-
# The tree in the heap

Parent pointers and lists of files say the same: `Tree`. In such a heap the
look-up follows no pointer that is `NULL` or freed, as long as the kernel found
the parent, and the three changes the callbacks make leave a tree: a file set
(`Tree.setFile`), added (`Tree.addFile`) or taken out (`Tree.removeFile`).

A new file has a larger address than every file before it, so a parent is
always smaller than its files and the tree has no loops. All but one of the
facts hold also if the kernel does not keep `rd_unlink` from directories: then
files may be left in the heap that no list has any more (`Shape`).

Key definitions: `Tree`, `Shape`, `Found`, `removeFile`, `Disposable`.
Key theorems: `getFile_cases`, `Vfs.found`, `Shape.addFile`, `Shape.removeFile`,
`Tree.addFile`, `Tree.removeFile`.
-/
import Csc501.Ramdisk.Disk

namespace Csc501
namespace Ramdisk

open Lib

/-- The heap is a tree below `root`. -/
structure Tree (d : Disk) : Prop where
  root : ∃ r, d.heap root = some r ∧ r.type = .directory
  fresh : ∀ p, d.next ≤ p → d.heap p = none
  down : ∀ q g p, d.heap q = some g → p ∈ g.files → ∃ f, d.heap p = some f ∧ f.parent = some q ∧ q < p
  up : ∀ p f, d.heap p = some f → p ≠ Ramdisk.root → ∃ q g, f.parent = some q ∧ d.heap q = some g ∧ p ∈ g.files
  nodup : ∀ q g, d.heap q = some g → g.files.Nodup
  leaf : ∀ p f, d.heap p = some f → f.type = .regular → f.files = []
  named : ∀ p f, d.heap p = some f → f.type = .regular → f.name ≠ []
  stored : ∀ p f, d.heap p = some f → f.type = .regular → 0 < f.size →
    ∃ bs, f.data = some bs ∧ bs.length = f.size

/-- The heap below `root` is a tree; there may be more in it. -/
structure Shape (d : Disk) : Prop where
  root : ∃ r, d.heap root = some r ∧ r.type = .directory
  fresh : ∀ p, d.next ≤ p → d.heap p = none
  down : ∀ q g p, d.heap q = some g → p ∈ g.files → ∃ f, d.heap p = some f ∧ f.parent = some q ∧ q < p
  nodup : ∀ q g, d.heap q = some g → g.files.Nodup
  leaf : ∀ p f, d.heap p = some f → f.type = .regular → f.files = []
  named : ∀ p f, d.heap p = some f → f.type = .regular → f.name ≠ []
  stored : ∀ p f, d.heap p = some f → f.type = .regular → 0 < f.size →
    ∃ bs, f.data = some bs ∧ bs.length = f.size

theorem Tree.shape {d : Disk} (h : Tree d) : Shape d :=
  ⟨h.root, h.fresh, h.down, h.nodup, h.leaf, h.named, h.stored⟩

theorem Shape.tree {d : Disk} (h : Shape d) (up : ∀ p f, d.heap p = some f → p ≠ Ramdisk.root →
    ∃ q g, f.parent = some q ∧ d.heap q = some g ∧ p ∈ g.files) : Tree d :=
  ⟨h.root, h.fresh, h.down, up, h.nodup, h.leaf, h.named, h.stored⟩

theorem tree_start (maxBytes : ℤ) (stale : ℕ → Bool) : Tree (Disk.start maxBytes stale) := by
  have hroot : ∀ {p f}, (Disk.start maxBytes stale).heap p = some f →
      p = root ∧ f = createRdFile rootName [] .directory := by
    intro p f h
    by_cases hp : p = root
    · refine ⟨hp, ?_⟩
      simpa [Disk.start, hp, eq_comm] using h
    · simp [Disk.start, hp] at h
  refine ⟨⟨_, rfl, rfl⟩, fun p hp => ?_, fun q g p h hm => ?_, fun p f h hne => ?_, fun q g h => ?_, fun p f h hr => ?_,
    fun p f h hr => ?_, fun p f h hr => ?_⟩
  · have hne : p ≠ root := by
      have hpos : 1 ≤ p := hp
      unfold root
      omega
    simp [Disk.start, hne]
  · rw [(hroot h).2] at hm
    exact absurd hm (by simp [createRdFile])
  · exact absurd (hroot h).1 hne
  · rw [(hroot h).2]
    simp [createRdFile]
  · rw [(hroot h).2]
    rfl
  · rw [(hroot h).2] at hr
    exact absurd hr (by simp [createRdFile])
  · rw [(hroot h).2] at hr
    exact absurd hr (by simp [createRdFile])

section Lookup

variable {d : Disk}

theorem Shape.live (h : Shape d) {q : ℕ} {g : RdFile} (hq : d.heap q = some g) :
    ∀ p ∈ g.files, ∃ f, d.heap p = some f := fun p hp => by
  obtain ⟨f, hf, -⟩ := h.down q g p hq hp
  exact ⟨f, hf⟩

theorem Shape.lt_next (h : Shape d) {p : ℕ} {f : RdFile} (hp : d.heap p = some f) : p < d.next := by
  by_contra hge
  rw [h.fresh p (by omega)] at hp
  exact absurd hp (by simp)

theorem Shape.child_ne_root (h : Shape d) {q p : ℕ} {g : RdFile} (hq : d.heap q = some g) (hp : p ∈ g.files) :
    p ≠ Ramdisk.root := by
  obtain ⟨f, -, -, hlt⟩ := h.down q g p hq hp
  unfold Ramdisk.root
  omega

/-- In a list of live files, `get_file` finds the first one of that name. -/
theorem getFile_cases (name : Text) : ∀ {l : List ℕ}, (∀ p ∈ l, ∃ f, d.heap p = some f) →
    (getFile d name l = some none ∧ ∀ p ∈ l, ∀ f, d.heap p = some f → f.name ≠ name) ∨
    (∃ p f, getFile d name l = some (some p) ∧ p ∈ l ∧ d.heap p = some f ∧ f.name = name)
  | [], _ => Or.inl ⟨rfl, by simp⟩
  | p :: l, h => by
    obtain ⟨f, hf⟩ := h p List.mem_cons_self
    by_cases hn : name = f.name
    · exact Or.inr ⟨p, f, by simp [getFile, hf, hn], List.mem_cons_self, hf, hn.symm⟩
    · have hstep : getFile d name (p :: l) = getFile d name l := by simp [getFile, hf, hn]
      rw [hstep]
      rcases getFile_cases name fun x hx => h x (List.mem_cons_of_mem _ hx) with ⟨h1, h2⟩ | ⟨x, f', h1, h2, h3⟩
      · refine Or.inl ⟨h1, fun x hx f' hf' => ?_⟩
        rcases List.mem_cons.mp hx with rfl | hx
        · rw [hf] at hf'
          obtain rfl := Option.some.inj hf'
          exact fun h' => hn h'.symm
        · exact h2 x hx f' hf'
      · exact Or.inr ⟨x, f', h1, List.mem_cons_of_mem _ h2, h3⟩

/-- What is found is in the list. -/
theorem mem_of_getFile {name : Text} {p : ℕ} : ∀ {l : List ℕ}, getFile d name l = some (some p) → p ∈ l
  | [], h => absurd h (by simp [getFile])
  | x :: l, h => by
    cases hx : d.heap x with
    | none => simp [getFile, hx] at h
    | some f =>
      simp only [getFile, hx, Option.bind_eq_bind, Option.bind_some] at h
      split_ifs at h
      · obtain rfl : x = p := by simpa using h
        exact List.mem_cons_self
      · exact List.mem_cons_of_mem _ (mem_of_getFile h)

/-- The name of the file at `p`. -/
def nameAt (d : Disk) (p : ℕ) : Text := ((d.heap p).map RdFile.name).getD []

theorem fillStats_type (f : RdFile) : (fillStats f).type = f.type := by
  cases h : f.type <;> simp [fillStats, h]

/-- The entries of a list of live files have their names. -/
theorem fillEntries_live : ∀ {l : List ℕ}, (∀ p ∈ l, ∃ f, d.heap p = some f) →
    ∃ es, fillEntries d l = some es ∧ es.map Prod.fst = l.map (nameAt d)
  | [], _ => ⟨[], rfl, rfl⟩
  | p :: l, h => by
    obtain ⟨f, hf⟩ := h p List.mem_cons_self
    obtain ⟨es, h1, h2⟩ := fillEntries_live fun x hx => h x (List.mem_cons_of_mem _ hx)
    refine ⟨(f.name, fillStats f) :: es, by simp [fillEntries, hf, h1], ?_⟩
    rw [List.map_cons, List.map_cons, h2]
    simp [nameAt, hf]

/-- A parent that is found is a directory. -/
theorem Shape.descend_directory (h : Shape d) : ∀ {names : List Text} {q p : ℕ} {g : RdFile},
    d.heap q = some g → g.type = .directory → descend d q names = some (some p) →
    ∃ f, d.heap p = some f ∧ f.type = .directory
  | [], q, p, g, hq, hg, hd => by
    obtain rfl := Option.some.inj (Option.some.inj hd)
    exact ⟨g, hq, hg⟩
  | name :: names, q, p, g, hq, hg, hd => by
    rcases getFile_cases name (h.live hq) with ⟨h1, -⟩ | ⟨x, f, h1, -, hx, -⟩
    · simp [descend, hq, h1] at hd
    · simp only [descend, hq, h1, hx, Option.bind_eq_bind, Option.bind_some] at hd
      split at hd
      · exact absurd hd (by simp)
      · rename_i hne
        have hdir : f.type = .directory := by
          cases hft : f.type with
          | regular => exact absurd hft hne
          | directory => rfl
        exact h.descend_directory hx hdir hd

/-- The parent directory of a path, and the name in it. -/
structure Found (d : Disk) (path : Text) (q : ℕ) (g : RdFile) (name : Text) : Prop where
  dirs : ∃ names count, getDirs path = some (names, count) ∧
    getParentDirectory d names count = some (some q) ∧ names[count]? = some name
  heap : d.heap q = some g
  dir : g.type = .directory

theorem ParentFound.found (ht : Shape d) {path : Text} (habs : ∃ p, path = '/' :: p) (h : ParentFound d path) :
    ∃ q g name, Found d path q g name := by
  obtain ⟨p, rfl⟩ := habs
  obtain ⟨names, count, q, h1, h2⟩ := h
  have h1' := h1
  rw [getDirs_absolute] at h1'
  obtain ⟨rfl, rfl⟩ := Prod.mk.inj (Option.some.inj h1')
  have hlt : (p.splitOn '/').length - 1 < (p.splitOn '/').length := by
    have := List.length_pos_iff.mpr (List.splitOn_ne_nil '/' p)
    omega
  obtain ⟨r, hr, hrd⟩ := ht.root
  obtain ⟨g, hg, hgd⟩ := ht.descend_directory hr hrd h2
  exact ⟨q, g, _, ⟨_, _, h1, h2, List.getElem?_eq_getElem hlt⟩, hg, hgd⟩

theorem Vfs.found (ht : Shape d) {op : Op} (hv : Vfs d op) : ∃ q g name, Found d op.path q g name :=
  hv.parent.found ht hv.absolute

variable {path name : Text} {q : ℕ} {g : RdFile}

theorem Found.getRdFile (h : Found d path q g name) : getRdFile d path = getFile d name g.files := by
  obtain ⟨names, count, h1, h2, h3⟩ := h.dirs
  simp [Ramdisk.getRdFile, h1, h2, h.heap, h3]

/-- A path that ends in a slash ends in an empty name. -/
theorem Found.name_nil (h : Found d path q g name) (hp : path = rootName ∨ endsWith path rootName = true)
    (habs : ∃ p, path = '/' :: p) : name = [] := by
  obtain ⟨p, rfl⟩ := habs
  obtain ⟨names, count, h1, -, h3⟩ := h.dirs
  rw [getDirs_absolute] at h1
  obtain ⟨rfl, rfl⟩ := Prod.mk.inj (Option.some.inj h1)
  rw [← List.getLast?_eq_getElem?] at h3
  have hsuf : ['/'] <:+ '/' :: p := by
    rcases hp with hp | hp
    · rw [hp]
      exact List.suffix_rfl
    · simpa [endsWith, rootName] using hp
  rcases List.eq_nil_or_concat' p with rfl | ⟨u, c, rfl⟩
  · simpa [eq_comm] using h3
  · rw [← List.cons_append] at hsuf
    obtain rfl : '/' = c := by simpa using hsuf
    rw [List.splitOn_append_cons_self] at h3
    simpa [eq_comm] using h3

/-- And only such a path does. -/
theorem Found.slash_of_nil (h : Found d path q g name) (hn : name = []) (habs : ∃ p, path = '/' :: p) :
    path = rootName ∨ endsWith path rootName = true := by
  obtain ⟨p, rfl⟩ := habs
  obtain ⟨names, count, h1, -, h3⟩ := h.dirs
  rw [getDirs_absolute] at h1
  obtain ⟨rfl, rfl⟩ := Prod.mk.inj (Option.some.inj h1)
  rw [← List.getLast?_eq_getElem?, hn] at h3
  rcases exists_last_delim '/' p with hp | ⟨u, w, rfl, hw⟩
  · rw [List.splitOn_eq_singleton hp] at h3
    obtain rfl : p = [] := by simpa using h3
    exact Or.inl rfl
  · rw [List.splitOn_append_cons_self, List.splitOn_eq_singleton hw] at h3
    obtain rfl : w = [] := by simpa using h3
    right
    simp [endsWith, rootName]

/-- The path of a regular file passes `valid_path`. -/
theorem Found.validPath (ht : Shape d) (h : Found d path q g name) (habs : ∃ p, path = '/' :: p)
    (hr : IsRegular d path) : validPath path = true := by
  obtain ⟨p, f, hp, hf, hreg⟩ := hr
  rw [h.getRdFile] at hp
  rcases getFile_cases name (ht.live h.heap) with ⟨h1, -⟩ | ⟨x, f', h1, -, hx, hn⟩
  · rw [h1] at hp
    exact absurd hp (by simp)
  · rw [h1] at hp
    obtain rfl : x = p := by simpa using hp
    rw [hx] at hf
    obtain rfl := Option.some.inj hf
    by_contra hval
    have hbad : path = rootName ∨ endsWith path rootName = true := by
      by_contra hno
      rw [not_or] at hno
      exact hval (by simp [Ramdisk.validPath, hno.1, hno.2])
    exact ht.named x f' hx hreg (hn.trans (h.name_nil hbad habs))

end Lookup

/-! ### The changes -/

/-- The directory `q` without its file `p`, which is freed. -/
def removeFile (d : Disk) (q : ℕ) (g : RdFile) (p : ℕ) : Disk :=
  { d with heap := Function.update (Function.update d.heap q (some { g with files := g.files.erase p })) p none }

section Heap

variable {d : Disk} {p q : ℕ} {f g : RdFile}

/-- What `free_file` frees as the data of the file is a buffer or `NULL`: they were
set, or `malloc` left a `NULL` there. -/
def Disposable (d : Disk) (p : ℕ) (f : RdFile) : Prop := f.data = none → d.stale p = false

instance (d : Disk) (p : ℕ) (f : RdFile) : Decidable (Disposable d p f) :=
  inferInstanceAs (Decidable (f.data = none → d.stale p = false))

theorem freeFile_eq (hp : d.heap p = some f) : freeFile d p =
    if Disposable d p f then some { d with heap := Function.update d.heap p none } else none := by
  simp only [freeFile, hp, Option.bind_eq_bind, Option.bind_some]
  by_cases hd : f.data = none ∧ d.stale p = true
  · have hk : ¬ Disposable d p f := fun h => absurd hd.2 (by simp [h hd.1])
    rw [if_pos hd, if_neg hk]
  · have hk : Disposable d p f := fun h => Bool.eq_false_iff.mpr fun hst => hd ⟨h, hst⟩
    rw [if_neg hd, if_pos hk]

theorem deleteItem_of_mem (hs : Shape d) (hq : d.heap q = some g) (hm : p ∈ g.files) (hp : d.heap p = some f) :
    deleteItem d q p = if Disposable d p f then some (removeFile d q g p) else none := by
  obtain ⟨-, -, -, hlt⟩ := hs.down q g p hq hm
  have hset : (d.setFile q { g with files := g.files.erase p }).heap p = some f :=
    (Function.update_of_ne hlt.ne' _ _).trans hp
  simp only [deleteItem, hq, if_pos hm, Option.bind_eq_bind, Option.bind_some]
  exact freeFile_eq hset

theorem setFile_heap (d : Disk) (p x : ℕ) (f : RdFile) :
    (d.setFile p f).heap x = if x = p then some f else d.heap x := Function.update_apply ..

theorem addFile_heap (d : Disk) (q x : ℕ) (g f : RdFile) : (addFile d q g f).heap x =
    if x = q then some { g with files := g.files ++ [d.next] }
    else if x = d.next then some { f with parent := some q } else d.heap x := by
  simp only [addFile, Function.update_apply]

/-- A regular file after one was added to a directory is the new one, or was there. -/
theorem addFile_regular {f y : RdFile} {x : ℕ} (hdir : g.type = .directory) (hx : (addFile d q g f).heap x = some y)
    (hr : y.type = .regular) : y = { f with parent := some q } ∨ d.heap x = some y := by
  rw [addFile_heap] at hx
  split_ifs at hx with hxq hxn
  · obtain rfl := Option.some.inj hx
    exact absurd (hdir.symm.trans hr) (by simp)
  · exact Or.inl (Option.some.inj hx).symm
  · exact Or.inr hx

theorem removeFile_heap (d : Disk) (q p x : ℕ) (g : RdFile) : (removeFile d q g p).heap x =
    if x = p then none else if x = q then some { g with files := g.files.erase p } else d.heap x := by
  simp only [removeFile, Function.update_apply]

/-- Two heaps that are alike have one shape. -/
theorem Shape.congr {d' : Disk} (h : Shape d) (hheap : d'.heap = d.heap) (hnext : d'.next = d.next) :
    Shape d' := by
  obtain ⟨h1, h2, h3, h4, h5, h6, h7⟩ := h
  rw [← hheap] at h1 h2 h3 h4 h5 h6 h7
  rw [← hnext] at h2
  exact ⟨h1, h2, h3, h4, h5, h6, h7⟩

theorem Tree.congr {d' : Disk} (h : Tree d) (hheap : d'.heap = d.heap) (hnext : d'.next = d.next) : Tree d' := by
  have hup := h.up
  rw [← hheap] at hup
  exact (h.shape.congr hheap hnext).tree hup

/-- A file may change its contents and flags. -/
theorem Shape.setFile {f' : RdFile} (h : Shape d) (hp : d.heap p = some f) (htype : f'.type = f.type)
    (hname : f'.name = f.name) (hparent : f'.parent = f.parent) (hfiles : f'.files = f.files)
    (hdata : f'.type = .regular → 0 < f'.size → ∃ bs, f'.data = some bs ∧ bs.length = f'.size) :
    Shape (d.setFile p f') := by
  -- every file is as it was, in all that the tree is made of
  have hold : ∀ {x y}, (d.setFile p f').heap x = some y → ∃ z, d.heap x = some z ∧ y.type = z.type ∧
      y.name = z.name ∧ y.parent = z.parent ∧ y.files = z.files ∧
      (y.type = .regular → 0 < y.size → ∃ bs, y.data = some bs ∧ bs.length = y.size) := by
    intro x y hx
    rw [setFile_heap] at hx
    split_ifs at hx with hxp
    · obtain rfl := Option.some.inj hx
      exact ⟨f, hxp ▸ hp, htype, hname, hparent, hfiles, hdata⟩
    · exact ⟨y, hx, rfl, rfl, rfl, rfl, h.stored x y hx⟩
  have hnew : ∀ {x z}, d.heap x = some z → ∃ y, (d.setFile p f').heap x = some y ∧ y.type = z.type ∧
      y.parent = z.parent ∧ y.files = z.files := by
    intro x z hx
    rw [setFile_heap]
    by_cases hxp : x = p
    · subst hxp
      rw [hp] at hx
      obtain rfl := Option.some.inj hx
      exact ⟨f', if_pos rfl, htype, hparent, hfiles⟩
    · exact ⟨z, by rw [if_neg hxp, hx], rfl, rfl, rfl⟩
  refine ⟨?_, fun x hx => ?_, fun x y z hx hz => ?_, fun x y hx => ?_, fun x y hx hr => ?_,
    fun x y hx hr => ?_, fun x y hx hr hs => ?_⟩
  · obtain ⟨r, hr, hrd⟩ := h.root
    obtain ⟨y, hy, hyt, -⟩ := hnew hr
    exact ⟨y, hy, hyt.trans hrd⟩
  · have hne : x ≠ p := by
      rintro rfl
      rw [h.fresh x hx] at hp
      exact absurd hp (by simp)
    rw [setFile_heap, if_neg hne]
    exact h.fresh x hx
  · obtain ⟨y', hy', -, -, -, hf, -⟩ := hold hx
    obtain ⟨w, hw, hpar, hlt⟩ := h.down x y' z hy' (hf ▸ hz)
    obtain ⟨v, hv, -, hvp, -⟩ := hnew hw
    exact ⟨v, hv, hvp.trans hpar, hlt⟩
  · obtain ⟨y', hy', -, -, -, hf, -⟩ := hold hx
    rw [hf]
    exact h.nodup x y' hy'
  · obtain ⟨y', hy', ht, -, -, hf, -⟩ := hold hx
    rw [hf]
    exact h.leaf x y' hy' (ht ▸ hr)
  · obtain ⟨y', hy', ht, hn, -⟩ := hold hx
    rw [hn]
    exact h.named x y' hy' (ht ▸ hr)
  · obtain ⟨-, -, -, -, -, -, hd⟩ := hold hx
    exact hd hr hs

theorem Tree.setFile {f' : RdFile} (h : Tree d) (hp : d.heap p = some f) (htype : f'.type = f.type)
    (hname : f'.name = f.name) (hparent : f'.parent = f.parent) (hfiles : f'.files = f.files)
    (hdata : f'.type = .regular → 0 < f'.size → ∃ bs, f'.data = some bs ∧ bs.length = f'.size) :
    Tree (d.setFile p f') := by
  refine (h.shape.setFile hp htype hname hparent hfiles hdata).tree fun x y hx hne => ?_
  -- its parent is as it was, and still has it
  obtain ⟨w, v, h1, h2, h3⟩ : ∃ w v, y.parent = some w ∧ d.heap w = some v ∧ x ∈ v.files := by
    rw [setFile_heap] at hx
    split_ifs at hx with hxp
    · obtain rfl := Option.some.inj hx
      rw [hparent]
      exact h.up x f (hxp ▸ hp) hne
    · exact h.up x y hx hne
  refine ⟨w, if w = p then f' else v, h1, ?_, ?_⟩
  · rw [setFile_heap]
    split_ifs <;> simp [h2]
  · split_ifs with hwp
    · rw [hwp, hp] at h2
      obtain rfl := Option.some.inj h2
      rwa [hfiles]
    · exact h3

/-- A new file goes into a directory. -/
theorem Shape.addFile {name path : Text} {type : FileType} (h : Shape d) (hq : d.heap q = some g)
    (hdir : g.type = .directory) (hname : type = .regular → name ≠ []) :
    Shape (addFile d q g (createRdFile name path type)) := by
  have hqn := h.lt_next hq
  have hold : ∀ {x y}, d.heap x = some y → x ≠ d.next := fun hx => (h.lt_next hx).ne
  have hfresh : ∀ {x y}, d.heap x = some y → d.next ∉ y.files := fun hx hm => by
    obtain ⟨w, hw, -⟩ := h.down _ _ _ hx hm
    exact hold hw rfl
  refine ⟨?_, fun x hx => ?_, fun x y z hx hz => ?_, fun x y hx => ?_, fun x y hx hr => ?_,
    fun x y hx hr => ?_, fun x y hx hr hs => ?_⟩
  · obtain ⟨r, hr, hrd⟩ := h.root
    rw [addFile_heap]
    by_cases hrq : Ramdisk.root = q
    · exact ⟨_, if_pos hrq, hdir⟩
    · rw [if_neg hrq, if_neg (hold hr)]
      exact ⟨r, hr, hrd⟩
  · have hx' : d.next + 1 ≤ x := hx
    rw [addFile_heap, if_neg (by omega), if_neg (by omega)]
    exact h.fresh x (by omega)
  · rw [addFile_heap] at hx ⊢
    split_ifs at hx with hxq hxn
    · -- a file of the parent, the new one or an old one
      obtain rfl := Option.some.inj hx
      subst hxq
      rcases List.mem_append.mp hz with hz | hz
      · obtain ⟨w, hw, hpar, hlt⟩ := h.down x g z hq hz
        rw [if_neg (by omega), if_neg (hold hw)]
        exact ⟨w, hw, hpar, hlt⟩
      · obtain rfl := List.mem_singleton.mp hz
        rw [if_neg (by omega), if_pos rfl]
        exact ⟨_, rfl, rfl, hqn⟩
    · obtain rfl := Option.some.inj hx
      exact absurd hz (by simp [createRdFile])
    · obtain ⟨w, hw, hpar, hlt⟩ := h.down x y z hx hz
      by_cases hzq : z = q
      · subst hzq
        rw [hq] at hw
        obtain rfl := Option.some.inj hw
        exact ⟨_, if_pos rfl, hpar, hlt⟩
      · rw [if_neg hzq, if_neg (hold hw)]
        exact ⟨w, hw, hpar, hlt⟩
  · rw [addFile_heap] at hx
    split_ifs at hx with hxq hxn
    · obtain rfl := Option.some.inj hx
      refine List.nodup_append.mpr ⟨h.nodup q g hq, by simp, fun a ha b hb heq => ?_⟩
      obtain rfl := List.mem_singleton.mp hb
      exact hfresh hq (heq ▸ ha)
    · obtain rfl := Option.some.inj hx
      simp [createRdFile]
    · exact h.nodup x y hx
  · rcases addFile_regular hdir hx hr with rfl | hx
    · rfl
    · exact h.leaf x y hx hr
  · rcases addFile_regular hdir hx hr with rfl | hx
    · exact hname hr
    · exact h.named x y hx hr
  · rcases addFile_regular hdir hx hr with rfl | hx
    · have hreg : type = .regular := hr
      subst hreg
      exact absurd hs (Nat.lt_irrefl 0)
    · exact h.stored x y hx hr hs

theorem Tree.addFile {name path : Text} {type : FileType} (h : Tree d) (hq : d.heap q = some g)
    (hdir : g.type = .directory) (hname : type = .regular → name ≠ []) :
    Tree (addFile d q g (createRdFile name path type)) := by
  refine (h.shape.addFile hq hdir hname).tree fun x y hx hne => ?_
  have hold : ∀ {x y}, d.heap x = some y → x ≠ d.next := fun hx => (h.shape.lt_next hx).ne
  have hup : ∀ {w v}, d.heap w = some v → x ∈ v.files →
      ∃ v', (Ramdisk.addFile d q g (createRdFile name path type)).heap w = some v' ∧ x ∈ v'.files := by
    intro w v hw hm
    rw [addFile_heap]
    by_cases hwq : w = q
    · subst hwq
      rw [hq] at hw
      obtain rfl := Option.some.inj hw
      exact ⟨_, if_pos rfl, List.mem_append_left _ hm⟩
    · rw [if_neg hwq, if_neg (hold hw)]
      exact ⟨v, hw, hm⟩
  rw [addFile_heap] at hx
  split_ifs at hx with hxq hxn
  · obtain rfl := Option.some.inj hx
    subst hxq
    obtain ⟨w, v, h1, h2, h3⟩ := h.up x g hq hne
    obtain ⟨v', hv', hm⟩ := hup h2 h3
    exact ⟨w, v', h1, hv', hm⟩
  · obtain rfl := Option.some.inj hx
    refine ⟨q, _, rfl, by rw [addFile_heap, if_pos rfl], ?_⟩
    rw [hxn]
    simp
  · obtain ⟨w, v, h1, h2, h3⟩ := h.up x y hx hne
    obtain ⟨v', hv', hm⟩ := hup h2 h3
    exact ⟨w, v', h1, hv', hm⟩

/-- A file goes; its own files, if it has any, are lost. -/
theorem Shape.removeFile (h : Shape d) (hq : d.heap q = some g) (hm : p ∈ g.files) :
    Shape (removeFile d q g p) := by
  obtain ⟨f, hp, hpar, hqp⟩ := h.down q g p hq hm
  have hqne : q ≠ p := hqp.ne
  -- nobody else has `p` among its files
  have honly : ∀ {x y}, d.heap x = some y → p ∈ y.files → x = q := fun hx hpx => by
    obtain ⟨w, hw, hwp, -⟩ := h.down _ _ _ hx hpx
    rw [hp] at hw
    obtain rfl := Option.some.inj hw
    rw [hpar] at hwp
    exact (Option.some.inj hwp).symm
  have hkeep : ∀ {x y}, x ≠ p → d.heap x = some y → ∃ y', (Ramdisk.removeFile d q g p).heap x = some y' ∧
      y'.type = y.type ∧ y'.parent = y.parent ∧ ∀ z ∈ y.files, z ≠ p → z ∈ y'.files := by
    intro x y hxp hx
    rw [removeFile_heap, if_neg hxp]
    by_cases hxq : x = q
    · subst hxq
      rw [hq] at hx
      obtain rfl := Option.some.inj hx
      exact ⟨_, if_pos rfl, rfl, rfl, fun z hz hzp => (List.mem_erase_of_ne hzp).mpr hz⟩
    · rw [if_neg hxq]
      exact ⟨y, hx, rfl, rfl, fun z hz _ => hz⟩
  have hback : ∀ {x y}, (Ramdisk.removeFile d q g p).heap x = some y → x ≠ p ∧ ∃ y', d.heap x = some y' ∧
      y.type = y'.type ∧ y.name = y'.name ∧ y.parent = y'.parent ∧ y.size = y'.size ∧ y.data = y'.data ∧
      y.files.Sublist y'.files ∧ p ∉ y.files := by
    intro x y hx
    rw [removeFile_heap] at hx
    split_ifs at hx with hxp hxq
    · obtain rfl := Option.some.inj hx
      refine ⟨hxp, g, hxq ▸ hq, rfl, rfl, rfl, rfl, rfl, List.erase_sublist, ?_⟩
      exact (h.nodup q g hq).not_mem_erase
    · exact ⟨hxp, y, hx, rfl, rfl, rfl, rfl, rfl, List.Sublist.refl _, fun hpy => hxq (honly hx hpy)⟩
  refine ⟨?_, fun x hx => ?_, fun x y z hx hz => ?_, fun x y hx => ?_, fun x y hx hr => ?_,
    fun x y hx hr => ?_, fun x y hx hr hs => ?_⟩
  · obtain ⟨r, hr, hrd⟩ := h.root
    obtain ⟨r', hr', ht, -⟩ := hkeep (h.child_ne_root hq hm).symm hr
    exact ⟨r', hr', ht.trans hrd⟩
  · have hx' : d.next ≤ x := hx
    have hp' := h.lt_next hp
    have hq' := h.lt_next hq
    rw [removeFile_heap, if_neg (by omega), if_neg (by omega)]
    exact h.fresh x hx'
  · obtain ⟨-, y', hy', -, -, -, -, -, hsub, hnp⟩ := hback hx
    obtain ⟨w, hw, hwp, hlt⟩ := h.down x y' z hy' (hsub.subset hz)
    obtain ⟨w', hw', -, hwp', -⟩ := hkeep (fun heq => hnp (heq ▸ hz)) hw
    exact ⟨w', hw', hwp'.trans hwp, hlt⟩
  · obtain ⟨-, y', hy', -, -, -, -, -, hsub, -⟩ := hback hx
    exact (h.nodup x y' hy').sublist hsub
  · obtain ⟨-, y', hy', ht, -, -, -, -, hsub, -⟩ := hback hx
    have := h.leaf x y' hy' (ht ▸ hr)
    rw [this] at hsub
    exact List.sublist_nil.mp hsub
  · obtain ⟨-, y', hy', ht, hn, -⟩ := hback hx
    rw [hn]
    exact h.named x y' hy' (ht ▸ hr)
  · obtain ⟨-, y', hy', ht, -, -, hsz, hdt, -⟩ := hback hx
    rw [hdt, hsz]
    exact h.stored x y' hy' (ht ▸ hr) (hsz ▸ hs)

theorem Tree.removeFile (h : Tree d) (hq : d.heap q = some g) (hm : p ∈ g.files) (hp : d.heap p = some f)
    (hempty : f.files = []) : Tree (removeFile d q g p) := by
  refine (h.shape.removeFile hq hm).tree fun x y hx hne => ?_
  obtain ⟨hxp, z, hz, hpar⟩ : x ≠ p ∧ ∃ z, d.heap x = some z ∧ y.parent = z.parent := by
    rw [removeFile_heap] at hx
    split_ifs at hx with hxp hxq
    · obtain rfl := Option.some.inj hx
      exact ⟨hxp, g, hxq ▸ hq, rfl⟩
    · exact ⟨hxp, y, hx, rfl⟩
  obtain ⟨w, v, h1, h2, h3⟩ := h.up x z hz hne
  -- the parent is not the file removed, which has no files
  have hwp : w ≠ p := by
    rintro rfl
    rw [hp] at h2
    obtain rfl := Option.some.inj h2
    rw [hempty] at h3
    exact absurd h3 List.not_mem_nil
  refine ⟨w, if w = q then { g with files := g.files.erase p } else v, hpar.trans h1, ?_, ?_⟩
  · rw [removeFile_heap, if_neg hwp]
    split_ifs <;> simp [h2]
  · split_ifs with hwq
    · rw [hwq, hq] at h2
      obtain rfl := Option.some.inj h2
      exact (List.mem_erase_of_ne hxp).mpr h3
    · exact h3

end Heap

end Ramdisk
end Csc501

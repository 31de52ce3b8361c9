/-
# The names in the tree

Which file is where: `At d cs p` says that the names `cs`, from the root on,
lead to the file at `p`. As long as no directory has two files of one name
(`Distinct`), a list of names leads to one file at most, and this is the one
the callbacks find. Of a change only its effect on names, kinds and lists of
files matters here: a file is added, removed, or nothing is seen of it.

Key definitions: `At`, `Distinct`, `Added`, `Removed`, `Unseen`.
Key theorems: `At.unique`, `Located.cases`, `Added.at_iff`, `Removed.at_iff`.
-/
import Csc501.Ramdisk.Space

namespace Csc501
namespace Ramdisk

open Lib

/-- The files of the directory at `q`. -/
def filesAt (d : Disk) (q : ℕ) : List ℕ := ((d.heap q).map RdFile.files).getD []

/-- The names `cs` lead from the root to the file at `p`. -/
inductive At (d : Disk) : List Text → ℕ → Prop
  | root : At d [] root
  | file {cs : List Text} {q p : ℕ} : At d cs q → p ∈ filesAt d q → At d (cs ++ [nameAt d p]) p

/-- No directory has two files of one name. -/
def Distinct (d : Disk) : Prop := ∀ q, ((filesAt d q).map (nameAt d)).Nodup

section View

variable {d : Disk} {p q : ℕ} {f g : RdFile} {cs : List Text} {n : Text}

theorem nameAt_some (hp : d.heap p = some f) : nameAt d p = f.name := by simp [nameAt, hp]

theorem typeAt_some (hp : d.heap p = some f) : typeAt d p = some f.type := by simp [typeAt, hp]

theorem filesAt_some (hp : d.heap p = some f) : filesAt d p = f.files := by simp [filesAt, hp]

theorem mem_filesAt (h : p ∈ filesAt d q) : ∃ g, d.heap q = some g ∧ p ∈ g.files := by
  cases hq : d.heap q with
  | none => simp [filesAt, hq] at h
  | some g => exact ⟨g, rfl, by simpa [filesAt, hq] using h⟩

theorem Shape.file (ht : Shape d) (h : p ∈ filesAt d q) : ∃ f, d.heap p = some f ∧ f.parent = some q ∧ q < p := by
  obtain ⟨g, hq, hm⟩ := mem_filesAt h
  exact ht.down q g p hq hm

theorem Shape.file_ne_root (ht : Shape d) (h : p ∈ filesAt d q) : p ≠ Ramdisk.root := by
  obtain ⟨g, hq, hm⟩ := mem_filesAt h
  exact ht.child_ne_root hq hm

/-- A file is in one directory. -/
theorem Shape.parent_unique (ht : Shape d) {q' : ℕ} (h : p ∈ filesAt d q) (h' : p ∈ filesAt d q') : q = q' := by
  obtain ⟨f, hf, hq, -⟩ := ht.file h
  obtain ⟨f', hf', hq', -⟩ := ht.file h'
  rw [hf] at hf'
  obtain rfl := Option.some.inj hf'
  rw [hq] at hq'
  exact Option.some.inj hq'

theorem Shape.nodup_filesAt (ht : Shape d) (q : ℕ) : (filesAt d q).Nodup := by
  cases hq : d.heap q with
  | none => simp [filesAt, hq]
  | some g =>
    rw [filesAt_some hq]
    exact ht.nodup q g hq

/-! ### Where a file is -/

theorem At.cases_last {l : List Text} (h : At d l p) :
    (l = [] ∧ p = Ramdisk.root) ∨ ∃ cs q, l = cs ++ [nameAt d p] ∧ At d cs q ∧ p ∈ filesAt d q := by
  cases h with
  | root => exact Or.inl ⟨rfl, rfl⟩
  | file hq hm => exact Or.inr ⟨_, _, rfl, hq, hm⟩

theorem at_nil : At d [] p ↔ p = root := by
  constructor
  · intro h
    rcases h.cases_last with ⟨-, hp⟩ | ⟨cs, q, h, -⟩
    · exact hp
    · exact absurd h (by simp)
  · rintro rfl
    exact .root

theorem at_concat : At d (cs ++ [n]) p ↔ ∃ q, At d cs q ∧ p ∈ filesAt d q ∧ nameAt d p = n := by
  constructor
  · intro h
    rcases h.cases_last with ⟨h, -⟩ | ⟨cs', q, h, hq, hm⟩
    · exact absurd h (by simp)
    · obtain ⟨rfl, hn⟩ := List.append_inj' h rfl
      exact ⟨q, hq, hm, (List.cons.inj hn).1.symm⟩
  · rintro ⟨q, hq, hm, rfl⟩
    exact hq.file hm

theorem At.live (ht : Shape d) (h : At d cs p) : ∃ f, d.heap p = some f := by
  rcases h.cases_last with ⟨-, rfl⟩ | ⟨_, q, -, -, hm⟩
  · obtain ⟨r, hr, -⟩ := ht.root
    exact ⟨r, hr⟩
  · obtain ⟨f, hf, -⟩ := ht.file hm
    exact ⟨f, hf⟩

/-- Names lead to one file. -/
theorem At.unique (hd : Distinct d) (h : At d cs p) : ∀ {p'}, At d cs p' → p = p' := by
  induction h with
  | root =>
    intro p' h'
    exact (at_nil.mp h').symm
  | @file cs q p _ hm ih =>
    intro p' h'
    obtain ⟨q', hq', hm', hn⟩ := at_concat.mp h'
    obtain rfl := ih hq'
    exact (List.inj_on_of_nodup_map (hd q) hm' hm hn).symm

/-- A file has one path. -/
theorem At.path_unique (ht : Shape d) (h : At d cs p) : ∀ {cs'}, At d cs' p → cs = cs' := by
  induction h with
  | root =>
    intro cs' h'
    rcases h'.cases_last with ⟨h, -⟩ | ⟨_, q, -, -, hm⟩
    · exact h.symm
    · exact absurd rfl (ht.file_ne_root hm)
  | @file cs q p _ hm ih =>
    intro cs' h'
    rcases h'.cases_last with ⟨-, hp⟩ | ⟨cs₁, q', rfl, hq', hm'⟩
    · exact absurd hp (ht.file_ne_root hm)
    · obtain rfl := ht.parent_unique hm hm'
      rw [ih hq']

theorem At.path_iff (ht : Shape d) (hd : Distinct d) {l : List Text} {x : ℕ} (hx : At d l x) (hq : At d cs q) :
    l = cs ↔ x = q := by
  constructor
  · rintro rfl
    exact hx.unique hd hq
  · rintro rfl
    exact hx.path_unique ht hq

/-! ### What the callbacks find -/

/-- The loop of `get_parent_directory` follows the names. -/
theorem At.descend (ht : Shape d) : ∀ {names cs : List Text} {q p : ℕ}, At d cs q →
    Ramdisk.descend d q names = some (some p) → At d (cs ++ names) p
  | [], cs, q, p, hq, hdesc => by
    obtain rfl : q = p := by simpa [Ramdisk.descend] using hdesc
    simpa using hq
  | n :: names, cs, q, p, hq, hdesc => by
    obtain ⟨g, hg⟩ := hq.live ht
    rcases getFile_cases n (ht.live hg) with ⟨h1, -⟩ | ⟨x, f, h1, hm, hx, hn⟩
    · simp [Ramdisk.descend, hg, h1] at hdesc
    · simp only [Ramdisk.descend, hg, h1, hx, Option.bind_eq_bind, Option.bind_some] at hdesc
      split at hdesc
      · exact absurd hdesc (by simp)
      · have hat : At d (cs ++ [n]) x :=
          at_concat.mpr ⟨q, hq, by rwa [filesAt_some hg], (nameAt_some hx).trans hn⟩
        simpa using At.descend ht hat hdesc

/-- The directory with the names `cs`, in which a callback looks for `n`. -/
structure Located (d : Disk) (cs : List Text) (n : Text) (q : ℕ) (g : RdFile) : Prop where
  found : Found d (pathText (cs ++ [n])) q g n
  parent : At d cs q

theorem ParentFound.located (ht : Shape d) (hnames : ∀ c ∈ cs ++ [n], IsName c)
    (h : ParentFound d (pathText (cs ++ [n]))) : ∃ q g, Located d cs n q g := by
  obtain ⟨q, g, name, hf⟩ : ∃ q g name, Found d (pathText (cs ++ [n])) q g name := h.found ht ⟨_, rfl⟩
  obtain ⟨names, count, h1, h2, h3⟩ := id hf.dirs
  rw [getDirs_pathText (by simp) hnames] at h1
  obtain ⟨rfl, rfl⟩ := Prod.mk.inj (Option.some.inj h1)
  have hlen : (cs ++ [n]).length - 1 = cs.length := by simp
  rw [hlen] at h2 h3
  obtain rfl : n = name := by simpa using h3
  have hdesc : Ramdisk.descend d root cs = some (some q) := by simpa [getParentDirectory] using h2
  exact ⟨q, g, hf, by simpa using At.descend ht .root hdesc⟩

/-- **A callback finds the file with these names**, or there is none. -/
theorem Located.cases (ht : Shape d) (hd : Distinct d) (h : Located d cs n q g) :
    (getFile d n g.files = some none ∧ ∀ p, ¬ At d (cs ++ [n]) p) ∨
    ∃ p f, getFile d n g.files = some (some p) ∧ p ∈ g.files ∧ d.heap p = some f ∧ At d (cs ++ [n]) p := by
  rcases getFile_cases n (ht.live h.found.heap) with ⟨h1, h2⟩ | ⟨p, f, h1, hm, hp, hn⟩
  · refine Or.inl ⟨h1, fun p hp => ?_⟩
    obtain ⟨q', hq', hm, hn⟩ := at_concat.mp hp
    obtain rfl := h.parent.unique hd hq'
    rw [filesAt_some h.found.heap] at hm
    obtain ⟨f, hf⟩ := ht.live h.found.heap p hm
    exact h2 p hm f hf ((nameAt_some hf).symm.trans hn)
  · refine Or.inr ⟨p, f, h1, hm, hp, at_concat.mpr ⟨q, h.parent, ?_, (nameAt_some hp).trans hn⟩⟩
    rwa [filesAt_some h.found.heap]

/-- What a callback that only looks finds under a path, the root's included. -/
theorem ParentFound.resolve (ht : Shape d) (hd : Distinct d) (hnames : ∀ c ∈ cs, IsName c)
    (h : ParentFound d (pathText cs)) : ∃ q g name, Found d (pathText cs) q g name ∧
      ((pathText cs ≠ rootName ∧ getFile d name g.files = some none ∧ ∀ p, ¬ At d cs p) ∨
      ∃ p f, (if pathText cs = rootName then some (some root) else getFile d name g.files) = some (some p) ∧
        d.heap p = some f ∧ At d cs p) := by
  rcases List.eq_nil_or_concat' cs with rfl | ⟨cs, n, rfl⟩
  · obtain ⟨q, g, name, hf⟩ : ∃ q g name, Found d (pathText []) q g name := h.found ht ⟨_, rfl⟩
    obtain ⟨r, hr, -⟩ := ht.root
    exact ⟨q, g, name, hf, Or.inr ⟨root, r, if_pos rfl, hr, .root⟩⟩
  · have hne := pathText_ne_root (by simp) hnames
    obtain ⟨q, g, hl⟩ := h.located ht hnames
    refine ⟨q, g, n, hl.found, ?_⟩
    rcases hl.cases ht hd with ⟨hg, hnone⟩ | ⟨p, f, hg, -, hp, hat⟩
    · exact Or.inl ⟨hne, hg, hnone⟩
    · exact Or.inr ⟨p, f, by rw [if_neg hne, hg], hp, hat⟩

end View

/-! ### What is seen of a change -/

/-- The file `p`, of kind `t`, with the name `n`, is new in the directory `q`. -/
structure Added (d d' : Disk) (q p : ℕ) (n : Text) (t : FileType) : Prop where
  name : ∀ x, nameAt d' x = if x = p then n else nameAt d x
  type : ∀ x, typeAt d' x = if x = p then some t else typeAt d x
  files : ∀ x, filesAt d' x = if x = q then filesAt d q ++ [p] else filesAt d x
  fresh : d.heap p = none

/-- The file `p` is gone from the directory `q`. -/
structure Removed (d d' : Disk) (q p : ℕ) : Prop where
  name : ∀ x, x ≠ p → nameAt d' x = nameAt d x
  type : ∀ x, typeAt d' x = if x = p then none else typeAt d x
  files : ∀ x, filesAt d' x = if x = q then (filesAt d q).erase p else filesAt d x
  mem : p ∈ filesAt d q
  leaf : filesAt d p = []

/-- No name, no kind and no list of files has changed. -/
structure Unseen (d d' : Disk) : Prop where
  name : ∀ x, nameAt d' x = nameAt d x
  type : ∀ x, typeAt d' x = typeAt d x
  files : ∀ x, filesAt d' x = filesAt d x

section Changes

variable {d d' : Disk} {p q x : ℕ} {f g : RdFile} {cs cs' : List Text} {n : Text} {t : FileType}

theorem Unseen.refl (d : Disk) : Unseen d d := ⟨fun _ => rfl, fun _ => rfl, fun _ => rfl⟩

theorem unseen_of_heap (f' : RdFile) (hp : d.heap p = some f) (hname : f'.name = f.name) (htype : f'.type = f.type)
    (hfiles : f'.files = f.files) (hheap : d'.heap = (d.setFile p f').heap) : Unseen d d' := by
  have hx : ∀ x, d'.heap x = if x = p then some f' else d.heap x := fun x => by rw [hheap, setFile_heap]
  refine ⟨fun x => ?_, fun x => ?_, fun x => ?_⟩
  · by_cases h : x = p
    · subst h
      simp [nameAt, hx, hp, hname]
    · simp [nameAt, hx, h]
  · by_cases h : x = p
    · subst h
      simp [typeAt, hx, hp, htype]
    · simp [typeAt, hx, h]
  · by_cases h : x = p
    · subst h
      simp [filesAt, hx, hp, hfiles]
    · simp [filesAt, hx, h]

theorem added_of_heap {path : Text} (ht : Shape d) (hq : d.heap q = some g)
    (hheap : d'.heap = (addFile d q g (createRdFile n path t)).heap) : Added d d' q d.next n t := by
  have hqn := ht.lt_next hq
  have hfresh := ht.fresh d.next le_rfl
  have hx : ∀ x, d'.heap x = if x = q then some { g with files := g.files ++ [d.next] }
      else if x = d.next then some { createRdFile n path t with parent := some q } else d.heap x :=
    fun x => by rw [hheap, addFile_heap]
  refine ⟨fun x => ?_, fun x => ?_, fun x => ?_, hfresh⟩
  · by_cases h : x = q
    · subst h
      simp [nameAt, hx, hq, hqn.ne]
    · by_cases h' : x = d.next <;> simp [nameAt, hx, h, h', hqn.ne', createRdFile]
  · by_cases h : x = q
    · subst h
      simp [typeAt, hx, hq, hqn.ne]
    · by_cases h' : x = d.next <;> simp [typeAt, hx, h, h', hqn.ne', createRdFile]
  · by_cases h : x = q
    · subst h
      simp [filesAt, hx, hq]
    · by_cases h' : x = d.next <;> simp [filesAt, hx, h, h', hqn.ne', createRdFile, hfresh]

theorem removed_of_heap (ht : Shape d) (hq : d.heap q = some g) (hm : p ∈ g.files) (hp : d.heap p = some f)
    (hleaf : f.files = []) (hheap : d'.heap = (removeFile d q g p).heap) : Removed d d' q p := by
  obtain ⟨_, -, -, hlt⟩ := ht.down q g p hq hm
  have hx : ∀ x, d'.heap x = if x = p then none
      else if x = q then some { g with files := g.files.erase p } else d.heap x :=
    fun x => by rw [hheap, removeFile_heap]
  refine ⟨fun x hne => ?_, fun x => ?_, fun x => ?_, by rwa [filesAt_some hq], by rw [filesAt_some hp, hleaf]⟩
  · by_cases h : x = q
    · subst h
      simp [nameAt, hx, hne, hq]
    · simp [nameAt, hx, hne, h]
  · by_cases h : x = p
    · simp [typeAt, hx, h]
    · by_cases h' : x = q
      · subst h'
        simp [typeAt, hx, h, hq]
      · simp [typeAt, hx, h, h']
  · by_cases h : x = p
    · subst h
      simp [filesAt, hx, hlt.ne', hp, hleaf]
    · by_cases h' : x = q
      · subst h'
        simp [filesAt, hx, h, hq]
      · simp [filesAt, hx, h, h']

/-- Only the callbacks that change names are seen. -/
theorem Change.unseen {op : Op} (h : Change d op d') (hop : ¬ op.Renames) : Unseen d d' := by
  cases h with
  | same => exact .refl d
  | @mark p f hp => exact unseen_of_heap { f with opened := true } hp rfl rfl rfl rfl
  | create hr => exact absurd hr hop
  | mkdir hr => exact absurd hr hop
  | unlink hr => exact absurd hr hop
  | rmdir hr => exact absurd hr hop
  | @write p n f bs _ hp =>
    exact unseen_of_heap { f with data := some bs, size := n } hp rfl rfl rfl rfl

theorem Unseen.at_of_at (h : Unseen d d') (hx : At d cs x) : At d' cs x := by
  induction hx with
  | root => exact .root
  | @file cs q p _ hm ih => exact at_concat.mpr ⟨q, ih, by rwa [h.files], h.name p⟩

theorem Unseen.at_iff (h : Unseen d d') : At d' cs x ↔ At d cs x :=
  ⟨Unseen.at_of_at ⟨fun x => (h.name x).symm, fun x => (h.type x).symm, fun x => (h.files x).symm⟩, h.at_of_at⟩

theorem Unseen.distinct (h : Unseen d d') (hd : Distinct d) : Distinct d' := by
  intro q
  rw [h.files, List.map_congr_left fun x _ => h.name x]
  exact hd q

theorem Added.not_mem (h : Added d d' q p n t) (ht : Shape d) (x : ℕ) : p ∉ filesAt d x := by
  intro hm
  obtain ⟨f, hf, -⟩ := ht.file hm
  rw [h.fresh] at hf
  exact absurd hf (by simp)

theorem Added.old_name (h : Added d d' q p n t) (ht : Shape d) {y : ℕ} (hm : x ∈ filesAt d y) :
    nameAt d' x = nameAt d x := by
  rw [h.name, if_neg]
  rintro rfl
  exact h.not_mem ht y hm

/-- Where the files are after one was added. -/
theorem Added.at_iff (h : Added d d' q p n t) (ht : Shape d) (hq : At d cs q) :
    At d' cs' x ↔ At d cs' x ∨ (cs' = cs ++ [n] ∧ x = p) := by
  constructor
  · intro hx
    induction hx with
    | root => exact Or.inl .root
    | @file cs₁ q₁ x _ hm ih =>
      rw [h.files] at hm
      rcases ih with hq₁ | ⟨-, rfl⟩
      · split_ifs at hm with hqq
        · subst hqq
          rcases List.mem_append.mp hm with hm | hm
          · exact Or.inl (at_concat.mpr ⟨q₁, hq₁, hm, (h.old_name ht hm).symm⟩)
          · obtain rfl := List.mem_singleton.mp hm
            rw [h.name, if_pos rfl, hq₁.path_unique ht hq]
            exact Or.inr ⟨rfl, rfl⟩
        · exact Or.inl (at_concat.mpr ⟨q₁, hq₁, hm, (h.old_name ht hm).symm⟩)
      · -- the new file has no files
        have hqp : ¬ q₁ = q := by
          rintro rfl
          obtain ⟨f, hf⟩ := hq.live ht
          rw [h.fresh] at hf
          exact absurd hf (by simp)
        rw [if_neg hqp] at hm
        simp [filesAt, h.fresh] at hm
  · -- what was there stays, the new one is in its directory
    have hold : ∀ {l y}, At d l y → At d' l y := by
      intro l y hy
      induction hy with
      | root => exact .root
      | @file cs₁ q₁ y _ hm ih =>
        refine at_concat.mpr ⟨q₁, ih, ?_, h.old_name ht hm⟩
        rw [h.files]
        split_ifs with hqq
        · exact List.mem_append_left _ (hqq ▸ hm)
        · exact hm
    rintro (hx | ⟨rfl, rfl⟩)
    · exact hold hx
    · refine at_concat.mpr ⟨q, hold hq, ?_, by rw [h.name, if_pos rfl]⟩
      rw [h.files, if_pos rfl]
      exact List.mem_append_right _ (List.mem_singleton_self _)

theorem Added.names (h : Added d d' q p n t) (ht : Shape d) (x : ℕ) : (filesAt d' x).map (nameAt d') =
    if x = q then (filesAt d x).map (nameAt d) ++ [n] else (filesAt d x).map (nameAt d) := by
  have hold : (filesAt d x).map (nameAt d') = (filesAt d x).map (nameAt d) :=
    List.map_congr_left fun y hy => h.old_name ht hy
  rw [h.files]
  split_ifs with hx
  · rw [← hx, List.map_append, hold, List.map_singleton, h.name, if_pos rfl]
  · exact hold

theorem Added.distinct (h : Added d d' q p n t) (ht : Shape d) (hd : Distinct d) (hq : At d cs q)
    (hnew : ∀ y, ¬ At d (cs ++ [n]) y) : Distinct d' := by
  intro x
  rw [h.names ht]
  split_ifs with hx
  · subst hx
    rw [← List.concat_eq_append]
    apply (hd x).concat
    intro hmem
    obtain ⟨y, hy, hyn⟩ := List.mem_map.mp hmem
    exact hnew y (at_concat.mpr ⟨x, hq, hy, hyn⟩)
  · exact hd x

theorem Removed.mem_files (h : Removed d d' q p) (ht : Shape d) {y : ℕ} :
    x ∈ filesAt d' y ↔ x ∈ filesAt d y ∧ x ≠ p := by
  rw [h.files]
  split_ifs with hy
  · rw [hy, (ht.nodup_filesAt q).mem_erase_iff]
    exact and_comm
  · refine ⟨fun hx => ⟨hx, ?_⟩, fun hx => hx.1⟩
    rintro rfl
    exact hy (ht.parent_unique hx h.mem)

/-- Where the files are after one was removed. -/
theorem Removed.at_iff (h : Removed d d' q p) (ht : Shape d) : At d' cs x ↔ At d cs x ∧ x ≠ p := by
  constructor
  · intro hx
    induction hx with
    | root => exact ⟨.root, (ht.file_ne_root h.mem).symm⟩
    | @file cs q₁ x _ hm ih =>
      obtain ⟨hm, hne⟩ := (h.mem_files ht).mp hm
      exact ⟨at_concat.mpr ⟨q₁, ih.1, hm, (h.name x hne).symm⟩, hne⟩
  · rintro ⟨hx, hne⟩
    induction hx with
    | root => exact .root
    | @file cs q₁ x _ hm ih =>
      -- its directory is not the file removed, which has no files
      have hq₁ : q₁ ≠ p := by
        rintro rfl
        rw [h.leaf] at hm
        exact absurd hm List.not_mem_nil
      exact at_concat.mpr ⟨q₁, ih hq₁, (h.mem_files ht).mpr ⟨hm, hne⟩, h.name x hne⟩

theorem Removed.names (h : Removed d d' q p) (ht : Shape d) (hd : Distinct d) (x : ℕ) :
    (filesAt d' x).map (nameAt d') = if x = q then ((filesAt d x).map (nameAt d)).filter (· ≠ nameAt d p)
      else (filesAt d x).map (nameAt d) := by
  have hsame : (filesAt d' x).map (nameAt d') = (filesAt d' x).map (nameAt d) :=
    List.map_congr_left fun y hy => h.name y ((h.mem_files ht).mp hy).2
  rw [hsame, h.files]
  split_ifs with hx
  · subst hx
    rw [(ht.nodup_filesAt x).erase_eq_filter, List.filter_map]
    congr 1
    apply List.filter_congr
    intro y hy
    have hiff : nameAt d y = nameAt d p ↔ y = p :=
      ⟨fun hn => List.inj_on_of_nodup_map (hd x) hy h.mem hn, fun hn => by rw [hn]⟩
    by_cases hyp : y = p <;> simp [hiff, hyp]
  · rfl

theorem Removed.distinct (h : Removed d d' q p) (ht : Shape d) (hd : Distinct d) : Distinct d' := by
  intro x
  rw [h.names ht hd]
  split_ifs
  · exact (hd x).filter _
  · exact hd x

end Changes

end Ramdisk
end Csc501

/-
# The tree as a file system

What the callbacks are for: an abstract file system keeps the paths that exist,
as lists of names, each a directory or a regular file, in the order of their
creation (`Fs`), and `Fs.exec` says how it answers. The tree of pointers and
lists simulates it, whatever is called in between, under what the kernel
guarantees: paths are normalised, their parent is a directory, `rd_create` is for
a path that is not there, `rd_unlink` for a regular file. It does so up to a call
that removes a file whose data were never set, if `malloc` has left something else
than `NULL` there (`namespace_refines_iff`).

Whether there is room for a directory is not a matter of names; the abstract
file system is told.

Key definitions: `Fs`, `Fs.exec`, `Orderly`, `Sim`, `Matches`, `Refined`.
Key theorems: `Sim.added`, `Sim.removed`, `sim_step`, `refined_iff`, `namespace_refines_iff`.
-/
import Csc501.Lib.NameTree
import Csc501.Ramdisk.Names

namespace Csc501
namespace Ramdisk

open Lib

/-! ### The abstract file system -/

/-- Paths as lists of names, each a directory or a regular file. -/
abbrev Fs := NameTree Text FileType

/-- The kind of a path. The root is a directory. -/
def Fs.kind (a : Fs) (cs : List Text) : Option FileType := if cs = [] then some .directory else a.lookup cs

/-- The names in a normalised absolute path. -/
def components (path : Text) : List Text := if path = rootName then [] else path.tail.splitOn '/'

/-- What is compared of an answer: the code, the kind and the names reported. -/
structure Answer where
  code : ℤ
  kind : Option FileType
  names : List Text
  deriving DecidableEq

def Answer.ofCode (code : ℤ) : Answer := ⟨code, none, []⟩

def Reply.answer (r : Reply) : Answer := ⟨r.code, r.stat.map Stat.type, r.entries.map Prod.fst⟩

/-- What a callback does to the file system and answers, or nothing if it is
not about names; `room` says whether there is room for a directory. -/
def Fs.exec (a : Fs) (room : Bool) : Op → Fs × Option Answer
  | .create path => (a.add (components path) .regular, some (.ofCode 0))
  | .mkdir path =>
    if !room then (a, some (.ofCode (-enospc)))
    else if (Fs.kind a (components path)).isSome then (a, some (.ofCode (-eexist)))
    else (a.add (components path) .directory, some (.ofCode 0))
  | .unlink path => (a.remove (components path), some (.ofCode 0))
  | .rmdir path =>
    match Fs.kind a (components path) with
    | none => (a, some (.ofCode (-enoent)))
    | some .regular => (a, some (.ofCode (-enotdir)))
    | some .directory =>
      if a.children (components path) ≠ [] then (a, some (.ofCode (-enotempty)))
      else (a.remove (components path), some (.ofCode 0))
  | .getattr path =>
    match Fs.kind a (components path) with
    | none => (a, some (.ofCode (-enoent)))
    | some t => (a, some ⟨0, some t, []⟩)
  | .opendir path =>
    match Fs.kind a (components path) with
    | none => (a, some (.ofCode (-enoent)))
    | some .regular => (a, some (.ofCode (-enotdir)))
    | some .directory => (a, some (.ofCode 0))
  | .readdir path =>
    match Fs.kind a (components path) with
    | some .directory => (a, some ⟨0, none, a.children (components path)⟩)
    | _ => (a, some (.ofCode (-enoent)))
  | _ => (a, none)

/-! ### What the kernel guarantees -/

/-- The path is normalised, it is not the root's if names are to change, and
what is to be created is not there. -/
structure Orderly (d : Disk) (op : Op) : Prop where
  vfs : Vfs d op
  normal : ∃ cs, op.path = pathText cs ∧ ∀ c ∈ cs, IsName c
  below : op.Renames → op.path ≠ rootName
  create : ∀ path, op = .create path → getRdFile d path = some none

/-- The disk under such calls. -/
def orderly (maxBytes : ℤ) : Lts Disk (Op × Reply) where
  init d := ∃ stale, d = Disk.start maxBytes stale
  step d e d' := Orderly d e.1 ∧ exec d e.1 = some (d', e.2)

/-- The abstract file system after a run. -/
def Fs.run (tr : List (Trans Disk (Op × Reply))) : Fs :=
  tr.foldl (fun a t => (Fs.exec a (memoryAvailable t.src directoryBytes) t.label.1).1) NameTree.empty

/-! ### The simulation -/

/-- A path is in the file system exactly if it leads to a file, of that kind,
and its children are the files of the directory, in order. -/
structure Sim (d : Disk) (a : Fs) : Prop where
  kind : ∀ cs t, Fs.kind a cs = some t ↔ ∃ p, At d cs p ∧ typeAt d p = some t
  children : ∀ cs p, At d cs p → a.children cs = (filesAt d p).map (nameAt d)

section Sim

variable {d d' : Disk} {a : Fs} {p q : ℕ} {f g : RdFile} {cs cs' : List Text} {n : Text} {t : FileType}

theorem components_pathText (h : ∀ c ∈ cs, IsName c) : components (pathText cs) = cs := by
  by_cases hne : cs = []
  · subst hne
    rfl
  · rw [components, if_neg (pathText_ne_root hne h), pathText, List.tail_cons, splitOn_intercalate_names hne h]

theorem kind_concat : Fs.kind a (cs ++ [n]) = a.lookup (cs ++ [n]) := by simp [Fs.kind]

/-- The kinds after a path was added that was not there. -/
theorem kind_add (h : a.lookup (cs ++ [n]) = none) (l : List Text) :
    Fs.kind (a.add (cs ++ [n]) t) l = if l = cs ++ [n] then some t else Fs.kind a l := by
  unfold Fs.kind
  rw [NameTree.lookup_add h]
  by_cases hl : l = [] <;> simp [hl]

theorem kind_remove (l : List Text) :
    Fs.kind (a.remove (cs ++ [n])) l = if l = cs ++ [n] then none else Fs.kind a l := by
  unfold Fs.kind
  rw [NameTree.lookup_remove]
  by_cases hl : l = [] <;> simp [hl]

theorem Sim.some (hs : Sim d a) (hp : At d cs p) (hf : d.heap p = some f) : Fs.kind a cs = some f.type :=
  (hs.kind cs f.type).mpr ⟨p, hp, typeAt_some hf⟩

theorem Sim.none (hs : Sim d a) (h : ∀ p, ¬ At d cs p) : Fs.kind a cs = none := by
  apply Option.eq_none_iff_forall_ne_some.mpr
  intro t ht
  obtain ⟨p, hp, -⟩ := (hs.kind cs t).mp ht
  exact h p hp

/-- A path that is not there has no children. -/
theorem Sim.no_children (hs : Sim d a) (h : ∀ p, ¬ At d cs p) : a.children cs = [] := by
  apply List.eq_nil_iff_forall_not_mem.mpr
  intro n hn
  rw [NameTree.mem_children, ← kind_concat, Option.ne_none_iff_exists'] at hn
  obtain ⟨t, ht⟩ := hn
  obtain ⟨p, hp, -⟩ := (hs.kind _ t).mp ht
  obtain ⟨q, hq, -⟩ := at_concat.mp hp
  exact h q hq

/-- Every child is listed once. -/
theorem Sim.nodup (hs : Sim d a) (hd : Distinct d) (cs : List Text) : (a.children cs).Nodup := by
  by_cases h : ∃ p, At d cs p
  · obtain ⟨p, hp⟩ := h
    rw [hs.children cs p hp]
    exact hd p
  · rw [hs.no_children fun p hp => h ⟨p, hp⟩]
    exact List.nodup_nil

theorem Sim.unseen (hs : Sim d a) (h : Unseen d d') : Sim d' a := by
  refine ⟨fun cs t => ?_, fun cs p hp => ?_⟩
  · rw [hs.kind]
    exact exists_congr fun p => by rw [h.at_iff, h.type]
  · rw [hs.children cs p (h.at_iff.mp hp), h.files, List.map_congr_left fun x _ => h.name x]

theorem Sim.added (hs : Sim d a) (h : Added d d' q p n t) (ht : Shape d) (hd : Distinct d) (hq : At d cs q)
    (hnew : ∀ x, ¬ At d (cs ++ [n]) x) : Sim d' (a.add (cs ++ [n]) t) := by
  have hnone : a.lookup (cs ++ [n]) = Option.none := by
    rw [← kind_concat]
    exact hs.none hnew
  have hnotp : ∀ {l x}, At d l x → x ≠ p := by
    rintro l x hx rfl
    obtain ⟨f, hf⟩ := hx.live ht
    rw [h.fresh] at hf
    exact absurd hf (by simp)
  refine ⟨fun l t' => ?_, fun l x hx => ?_⟩
  · rw [kind_add hnone]
    by_cases hl : l = cs ++ [n]
    · subst hl
      rw [if_pos rfl]
      constructor
      · intro heq
        refine ⟨p, (h.at_iff ht hq).mpr (Or.inr ⟨rfl, rfl⟩), ?_⟩
        rw [h.type, if_pos rfl, heq]
      · rintro ⟨x, hx, hxt⟩
        rcases (h.at_iff ht hq).mp hx with hx | ⟨-, rfl⟩
        · exact absurd hx (hnew x)
        · rwa [h.type, if_pos rfl] at hxt
    · rw [if_neg hl, hs.kind]
      apply exists_congr
      intro x
      rw [h.at_iff ht hq, h.type]
      constructor
      · rintro ⟨hx, hxt⟩
        exact ⟨Or.inl hx, by rw [if_neg (hnotp hx), hxt]⟩
      · rintro ⟨hx | ⟨hx, -⟩, hxt⟩
        · rw [if_neg (hnotp hx)] at hxt
          exact ⟨hx, hxt⟩
        · exact absurd hx hl
  · rw [NameTree.children_add, h.names ht]
    rcases (h.at_iff ht hq).mp hx with hx | ⟨rfl, rfl⟩
    · rw [hs.children l x hx]
      simp only [hx.path_iff ht hd hq]
    · -- the new file has no files, and is not its own parent
      have hqp : ¬ x = q := (hnotp hq).symm
      have hcs : ¬ cs ++ [n] = cs := by simp
      rw [if_neg hcs, if_neg hqp, hs.no_children hnew]
      simp [filesAt, h.fresh]

theorem Sim.removed (hs : Sim d a) (h : Removed d d' q p) (ht : Shape d) (hd : Distinct d) (hq : At d cs q)
    (hn : nameAt d p = n) : Sim d' (a.remove (cs ++ [n])) := by
  have hp : At d (cs ++ [n]) p := at_concat.mpr ⟨q, hq, h.mem, hn⟩
  refine ⟨fun l t' => ?_, fun l x hx => ?_⟩
  · rw [kind_remove]
    by_cases hl : l = cs ++ [n]
    · subst hl
      rw [if_pos rfl]
      refine ⟨fun heq => absurd heq (by simp), ?_⟩
      rintro ⟨x, hx, -⟩
      obtain ⟨hx, hne⟩ := (h.at_iff ht).mp hx
      exact absurd (hx.unique hd hp) hne
    · rw [if_neg hl, hs.kind]
      apply exists_congr
      intro x
      have hxp : At d l x → x ≠ p := by
        rintro hx rfl
        exact hl (hx.path_unique ht hp)
      rw [h.at_iff ht, h.type]
      constructor
      · rintro ⟨hx, hxt⟩
        exact ⟨⟨hx, hxp hx⟩, by rw [if_neg (hxp hx), hxt]⟩
      · rintro ⟨⟨hx, hne⟩, hxt⟩
        rw [if_neg hne] at hxt
        exact ⟨hx, hxt⟩
  · obtain ⟨hx, -⟩ := (h.at_iff ht).mp hx
    rw [NameTree.children_remove, h.names ht hd, hs.children l x hx, hn]
    simp only [hx.path_iff ht hd hq]

end Sim

/-! ### One callback -/

/-- The disk and the reply after a callback are as the file system has them. -/
structure Matches (d' : Disk) (r : Reply) (x : Fs × Option Answer) : Prop where
  sim : Sim d' x.1
  distinct : Distinct d'
  answer : ∀ ans, x.2 = some ans → r.answer = ans

section Callbacks

variable {d d' : Disk} {a : Fs} {r : Reply} {cs : List Text} {n : Text} {q : ℕ} {g : RdFile} {room : Bool}

theorem Matches.of_answer {ans : Answer} (hs : Sim d' a) (hd : Distinct d') (h : r.answer = ans) :
    Matches d' r (a, some ans) := ⟨hs, hd, fun _ heq => h.trans (Option.some.inj heq)⟩

theorem matches_mkdir (ht : Shape d) (hd : Distinct d) (hs : Sim d a) (h : Located d cs n q g)
    (hnames : ∀ c ∈ cs ++ [n], IsName c) (hex : rdMkdir d (pathText (cs ++ [n])) = some (d', r)) :
    Matches d' r (Fs.exec a (memoryAvailable d directoryBytes) (.mkdir (pathText (cs ++ [n])))) := by
  rw [h.found.rdMkdir, if_neg (pathText_ne_root (by simp) hnames)] at hex
  simp only [Fs.exec, components_pathText hnames]
  by_cases hroom : (!memoryAvailable d directoryBytes) = true
  · rw [if_pos hroom] at hex ⊢
    obtain ⟨rfl, rfl⟩ := Prod.mk.inj (Option.some.inj hex)
    exact .of_answer hs hd rfl
  · rw [if_neg hroom] at hex ⊢
    rcases h.cases ht hd with ⟨hg, hnew⟩ | ⟨p, f, hg, -, hp, hat⟩
    · rw [hg] at hex
      obtain ⟨hd', rfl⟩ := Prod.mk.inj (Option.some.inj hex)
      have hheap : d'.heap = (addFile d q g (createRdFile n g.name .directory)).heap := by rw [← hd']
      have hadd := added_of_heap ht h.found.heap hheap
      rw [if_neg (by simp [hs.none hnew])]
      exact .of_answer (hs.added hadd ht hd h.parent hnew) (hadd.distinct ht hd h.parent hnew) rfl
    · rw [hg] at hex
      obtain ⟨rfl, rfl⟩ := Prod.mk.inj (Option.some.inj hex)
      rw [if_pos (by simp [hs.some hat hp])]
      exact .of_answer hs hd rfl

theorem matches_create (ht : Shape d) (hd : Distinct d) (hs : Sim d a) (h : Located d cs n q g)
    (hnames : ∀ c ∈ cs ++ [n], IsName c) (hnone : getRdFile d (pathText (cs ++ [n])) = some none)
    (hex : rdCreate d (pathText (cs ++ [n])) = some (d', r)) :
    Matches d' r (Fs.exec a room (.create (pathText (cs ++ [n])))) := by
  have hbad : ¬ (decide (pathText (cs ++ [n]) = rootName) || endsWith (pathText (cs ++ [n])) rootName) = true := by
    simp [pathText_ne_root (by simp) hnames, endsWith_pathText (by simp) hnames]
  rw [h.found.rdCreate, if_neg hbad] at hex
  simp only [Fs.exec, components_pathText hnames]
  obtain ⟨hd', rfl⟩ := Prod.mk.inj (Option.some.inj hex)
  have hheap : d'.heap = (addFile d q g (createRdFile n g.name .regular)).heap := by rw [← hd']
  rcases h.cases ht hd with ⟨-, hnew⟩ | ⟨p, f, hg, -⟩
  · have hadd := added_of_heap ht h.found.heap hheap
    exact .of_answer (hs.added hadd ht hd h.parent hnew) (hadd.distinct ht hd h.parent hnew) rfl
  · rw [h.found.getRdFile, hg] at hnone
    exact absurd hnone (by simp)

theorem matches_unlink (ht : Shape d) (hd : Distinct d) (hs : Sim d a) (h : Located d cs n q g)
    (hnames : ∀ c ∈ cs ++ [n], IsName c) (hreg : IsRegular d (pathText (cs ++ [n])))
    (hex : rdUnlink d (pathText (cs ++ [n])) = some (d', r)) :
    Matches d' r (Fs.exec a room (.unlink (pathText (cs ++ [n])))) := by
  simp only [Fs.exec, components_pathText hnames]
  obtain ⟨p', f', hfound, hf', hregular⟩ := hreg
  rw [h.found.getRdFile] at hfound
  rcases h.cases ht hd with ⟨hg, -⟩ | ⟨p, f, hg, hm, hp, hat⟩
  · rw [hg] at hfound
    exact absurd hfound (by simp)
  · rw [h.found.unlink_eq ht (pathText_ne_root (by simp) hnames) hg hp] at hex
    rw [hg] at hfound
    obtain rfl : p = p' := by simpa using hfound
    rw [hp] at hf'
    obtain rfl := Option.some.inj hf'
    split_ifs at hex
    obtain ⟨hd', rfl⟩ := Prod.mk.inj (Option.some.inj hex)
    have hheap : d'.heap = (removeFile d q g p).heap := by rw [← hd']
    have hrem := removed_of_heap ht h.found.heap hm hp (ht.leaf p f hp hregular) hheap
    obtain ⟨-, -, -, hn⟩ := at_concat.mp hat
    exact .of_answer (hs.removed hrem ht hd h.parent hn) (hrem.distinct ht hd) rfl

theorem matches_rmdir (ht : Shape d) (hd : Distinct d) (hs : Sim d a) (h : Located d cs n q g)
    (hnames : ∀ c ∈ cs ++ [n], IsName c) (hex : rdRmdir d (pathText (cs ++ [n])) = some (d', r)) :
    Matches d' r (Fs.exec a room (.rmdir (pathText (cs ++ [n])))) := by
  have hne := pathText_ne_root (by simp) hnames
  have hex' := hex
  unfold rdRmdir at hex
  rw [if_neg hne, h.found.getRdFile] at hex
  simp only [Fs.exec, components_pathText hnames]
  rcases h.cases ht hd with ⟨hg, hnew⟩ | ⟨p, f, hg, hm, hp, hat⟩
  · rw [hg] at hex
    obtain ⟨rfl, rfl⟩ := Prod.mk.inj (Option.some.inj hex)
    rw [hs.none hnew]
    exact .of_answer hs hd rfl
  · rw [hg] at hex
    simp only [Option.bind_eq_bind, Option.bind_some, hp] at hex
    rw [hs.some hat hp]
    cases htype : f.type with
    | regular =>
      rw [htype, if_pos (by simp)] at hex
      obtain ⟨rfl, rfl⟩ := Prod.mk.inj (Option.some.inj hex)
      exact .of_answer hs hd rfl
    | directory =>
      rw [htype, if_neg (by simp)] at hex
      have hchildren : a.children (cs ++ [n]) = f.files.map (nameAt d) := by
        rw [hs.children _ p hat, filesAt_some hp]
      by_cases hempty : f.files = []
      · rw [h.found.rmdir_eq ht hne hg hp htype hempty] at hex'
        split_ifs at hex'
        obtain ⟨hd', rfl⟩ := Prod.mk.inj (Option.some.inj hex')
        have hheap : d'.heap = (removeFile d q g p).heap := by rw [← hd']
        have hrem := removed_of_heap ht h.found.heap hm hp hempty hheap
        obtain ⟨-, -, -, hn⟩ := at_concat.mp hat
        simp only [hchildren, hempty, List.map_nil, ne_eq, not_true_eq_false, if_false]
        exact .of_answer (hs.removed hrem ht hd h.parent hn) (hrem.distinct ht hd) rfl
      · rw [if_pos hempty] at hex
        obtain ⟨rfl, rfl⟩ := Prod.mk.inj (Option.some.inj hex)
        simp only [hchildren]
        rw [if_pos (by simpa using hempty)]
        exact .of_answer hs hd rfl

theorem matches_getattr (ht : Shape d) (hd : Distinct d) (hs : Sim d a) (hnames : ∀ c ∈ cs, IsName c)
    (hp : ParentFound d (pathText cs)) (hex : rdGetattr d (pathText cs) = some (d', r)) :
    Matches d' r (Fs.exec a room (.getattr (pathText cs))) := by
  obtain ⟨q, g, name, hf, hres⟩ := hp.resolve ht hd hnames
  rw [hf.rdGetattr] at hex
  simp only [Fs.exec, components_pathText hnames]
  rcases hres with ⟨hne, hg, hnone⟩ | ⟨p, f, hres, hp, hat⟩
  · rw [if_neg hne, hg] at hex
    obtain ⟨rfl, rfl⟩ := Prod.mk.inj (Option.some.inj hex)
    rw [hs.none hnone]
    exact .of_answer hs hd rfl
  · have hreply : some (d, { Reply.ofCode 0 with stat := some (fillStats f) }) = some (d', r) := by
      rw [← hex]
      split_ifs at hres ⊢ with hroot
      · obtain rfl : root = p := by simpa using hres
        rw [hp]
        rfl
      · rw [hres]
        simp only [Option.bind_some, hp]
    obtain ⟨rfl, rfl⟩ := Prod.mk.inj (Option.some.inj hreply)
    rw [hs.some hat hp]
    apply Matches.of_answer hs hd
    simp [Reply.answer, Reply.ofCode, fillStats_type]

theorem matches_opendir (ht : Shape d) (hd : Distinct d) (hs : Sim d a) (hnames : ∀ c ∈ cs, IsName c)
    (hp : ParentFound d (pathText cs)) (hex : rdOpendir d (pathText cs) = some (d', r)) :
    Matches d' r (Fs.exec a room (.opendir (pathText cs))) := by
  obtain ⟨q, g, name, hf, hres⟩ := hp.resolve ht hd hnames
  unfold rdOpendir at hex
  rw [hf.getRdFile] at hex
  simp only [Fs.exec, components_pathText hnames]
  rcases hres with ⟨hne, hg, hnone⟩ | ⟨p, f, hres, hp, hat⟩
  · rw [if_neg hne, hg] at hex
    obtain ⟨rfl, rfl⟩ := Prod.mk.inj (Option.some.inj hex)
    rw [hs.none hnone]
    exact .of_answer hs hd rfl
  · rw [hs.some hat hp]
    split_ifs at hres hex with hroot
    · obtain rfl : root = p := by simpa using hres
      obtain ⟨r', hr', hdir⟩ := ht.root
      rw [hp] at hr'
      obtain rfl := Option.some.inj hr'
      obtain ⟨rfl, rfl⟩ := Prod.mk.inj (Option.some.inj hex)
      rw [hdir]
      exact .of_answer hs hd rfl
    · rw [hres] at hex
      simp only [Option.bind_eq_bind, Option.bind_some, hp] at hex
      cases htype : f.type with
      | regular =>
        rw [htype, if_pos (by simp)] at hex
        obtain ⟨rfl, rfl⟩ := Prod.mk.inj (Option.some.inj hex)
        exact .of_answer hs hd rfl
      | directory =>
        rw [htype, if_neg (by simp)] at hex
        obtain ⟨rfl, rfl⟩ := Prod.mk.inj (Option.some.inj hex)
        exact .of_answer hs hd rfl

theorem matches_readdir (ht : Shape d) (hd : Distinct d) (hs : Sim d a) (hnames : ∀ c ∈ cs, IsName c)
    (hp : ParentFound d (pathText cs)) (hex : rdReaddir d (pathText cs) = some (d', r)) :
    Matches d' r (Fs.exec a room (.readdir (pathText cs))) := by
  obtain ⟨q, g, name, hf, hres⟩ := hp.resolve ht hd hnames
  rw [hf.rdReaddir] at hex
  simp only [Fs.exec, components_pathText hnames]
  rcases hres with ⟨hne, hg, hnone⟩ | ⟨p, f, hres, hp, hat⟩
  · rw [if_neg hne, hg] at hex
    obtain ⟨rfl, rfl⟩ := Prod.mk.inj (Option.some.inj hex)
    rw [hs.none hnone]
    exact .of_answer hs hd rfl
  · rw [hres] at hex
    simp only [Option.bind_some, hp] at hex
    rw [hs.some hat hp]
    cases htype : f.type with
    | regular =>
      rw [htype, if_pos rfl] at hex
      obtain ⟨rfl, rfl⟩ := Prod.mk.inj (Option.some.inj hex)
      exact .of_answer hs hd rfl
    | directory =>
      obtain ⟨es, hes, hnames'⟩ := fillEntries_live (ht.live hp)
      rw [htype, if_neg (by simp), hes] at hex
      obtain ⟨rfl, rfl⟩ := Prod.mk.inj (Option.some.inj hex)
      apply Matches.of_answer hs hd
      simp [Reply.answer, Reply.ofCode, hnames', hs.children cs p hat, filesAt_some hp]

/-- The directory in which names are to change. -/
theorem Orderly.located {op : Op} (ho : Orderly d op) (ht : Shape d) (hr : op.Renames) :
    ∃ cs n q g, op.path = pathText (cs ++ [n]) ∧ (∀ c ∈ cs ++ [n], IsName c) ∧ Located d cs n q g := by
  obtain ⟨cs, hpath, hnames⟩ := ho.normal
  have hpar := ho.vfs.parent
  rcases List.eq_nil_or_concat' cs with rfl | ⟨cs, n, rfl⟩
  · exact absurd hpath (ho.below hr)
  · rw [hpath] at hpar
    obtain ⟨q, g, hl⟩ := hpar.located ht hnames
    exact ⟨cs, n, q, g, hpath, hnames, hl⟩

/-- Every callback does what the file system does. -/
theorem sim_step {op : Op} (hi : Inv d) (hd : Distinct d) (hs : Sim d a) (ho : Orderly d op)
    (hex : exec d op = some (d', r)) : Matches d' r (Fs.exec a (memoryAvailable d directoryBytes) op) := by
  have ht := hi.shape
  have hpar := ho.vfs.parent
  have hother : ¬ op.Renames → (Fs.exec a (memoryAvailable d directoryBytes) op) = (a, none) →
      Matches d' r (Fs.exec a (memoryAvailable d directoryBytes) op) := by
    intro hop heq
    have hch := exec_change ht hi.bounded ho.vfs hex
    rw [heq]
    exact ⟨hs.unseen (hch.unseen hop), (hch.unseen hop).distinct hd, nofun⟩
  obtain ⟨l, hpath, hnames⟩ := ho.normal
  cases op with
  | create path =>
    obtain ⟨cs, n, q, g, rfl, hn, hl⟩ := ho.located ht trivial
    exact matches_create ht hd hs hl hn (ho.create _ rfl) hex
  | mkdir path =>
    obtain ⟨cs, n, q, g, rfl, hn, hl⟩ := ho.located ht trivial
    exact matches_mkdir ht hd hs hl hn hex
  | unlink path =>
    obtain ⟨cs, n, q, g, rfl, hn, hl⟩ := ho.located ht trivial
    exact matches_unlink ht hd hs hl hn (ho.vfs.unlink _ rfl) hex
  | rmdir path =>
    obtain ⟨cs, n, q, g, rfl, hn, hl⟩ := ho.located ht trivial
    exact matches_rmdir ht hd hs hl hn hex
  | getattr path =>
    obtain rfl : path = pathText l := hpath
    exact matches_getattr ht hd hs hnames hpar hex
  | opendir path =>
    obtain rfl : path = pathText l := hpath
    exact matches_opendir ht hd hs hnames hpar hex
  | readdir path =>
    obtain rfl : path = pathText l := hpath
    exact matches_readdir ht hd hs hnames hpar hex
  | write path buffer offset => exact hother (fun h => h) rfl
  | «open» path flags => exact hother (fun h => h) rfl
  | flush path => exact hother (fun h => h) rfl
  | read path size offset => exact hother (fun h => h) rfl
  | statfs path => exact hother (fun h => h) rfl

end Callbacks

/-! ### Runs -/

section Runs

variable {m : ℤ} {stale : ℕ → Bool} {d d' : Disk} {tr : List (Trans Disk (Op × Reply))} {op : Op}

theorem filesAt_start (m : ℤ) (stale : ℕ → Bool) (p : ℕ) : filesAt (Disk.start m stale) p = [] := by
  by_cases hp : p = root <;> simp [filesAt, Disk.start, hp, createRdFile]

theorem at_start {cs : List Text} {p : ℕ} : At (Disk.start m stale) cs p ↔ cs = [] ∧ p = root := by
  constructor
  · intro h
    rcases h.cases_last with h | ⟨_, q, -, -, hm⟩
    · exact h
    · rw [filesAt_start] at hm
      exact absurd hm List.not_mem_nil
  · rintro ⟨rfl, rfl⟩
    exact .root

theorem sim_start (m : ℤ) (stale : ℕ → Bool) : Sim (Disk.start m stale) NameTree.empty := by
  have hroot : typeAt (Disk.start m stale) root = some .directory := rfl
  refine ⟨fun cs t => ?_, fun cs p hp => ?_⟩
  · constructor
    · intro h
      by_cases hcs : cs = []
      · refine ⟨root, at_start.mpr ⟨hcs, rfl⟩, ?_⟩
        rw [hroot, ← h, Fs.kind, if_pos hcs]
      · rw [Fs.kind, if_neg hcs] at h
        exact absurd h (by simp [NameTree.lookup, NameTree.empty])
    · rintro ⟨p, hp, ht⟩
      obtain ⟨rfl, rfl⟩ := at_start.mp hp
      rw [Fs.kind, if_pos rfl, ← ht, hroot]
  · rw [filesAt_start]
    rfl

theorem Fs.run_snoc (t : Trans Disk (Op × Reply)) : Fs.run (tr ++ [t]) =
    (Fs.exec (Fs.run tr) (memoryAvailable t.src directoryBytes) t.label.1).1 := by
  simp [Fs.run]

/-- The call returns, and has done and answered what the file system does. -/
def Refined (d : Disk) (a : Fs) (op : Op) : Prop :=
  ∃ d' r, exec d op = some (d', r) ∧ Matches d' r (Fs.exec a (memoryAvailable d directoryBytes) op)

/-- A call is refined exactly if it goes right at `free`. -/
theorem refined_iff {a : Fs} (hi : Inv d) (hd : Distinct d) (hs : Sim d a) (ho : Orderly d op) :
    Refined d a op ↔ FreesKnown d op := by
  rw [← exec_returns hi.shape hi.bounded ho.vfs]
  constructor
  · rintro ⟨d', r, hex, -⟩
    exact ⟨d', r, hex⟩
  · rintro ⟨d', r, hex⟩
    exact ⟨d', r, hex, sim_step hi hd hs ho hex⟩

/-- **The tree refines the abstract file system**, whatever orderly calls are made, as
long as no call frees a pointer that was never set. After every run of calls that return
the two agree, every answer on the way was the one of the file system, and no child is
listed twice; the next call returns, and does what the file system does, exactly if what
it frees as the data of a file was set, or is `NULL`. -/
theorem namespace_refines_iff (hm : Capacity m) (hr : (orderly m).Run (Disk.start m stale) tr d)
    (ho : Orderly d op) :
    Sim d (Fs.run tr) ∧
    (∀ pre t post, tr = pre ++ t :: post → ∀ ans,
      (Fs.exec (Fs.run pre) (memoryAvailable t.src directoryBytes) t.label.1).2 = some ans →
      t.label.2.answer = ans) ∧
    (∀ cs, ((Fs.run tr).children cs).Nodup) ∧
    (Refined d (Fs.run tr) op ↔ FreesKnown d op) := by
  have h0 : Inv (Disk.start m stale) ∧ Distinct (Disk.start m stale) ∧ Sim (Disk.start m stale) (Fs.run []) :=
    ⟨inv_start hm stale, fun q => by rw [filesAt_start]; exact List.nodup_nil, sim_start m stale⟩
  have hstep : ∀ tr s e s', Inv s ∧ Distinct s ∧ Sim s (Fs.run tr) → (orderly m).step s e s' →
      (∀ ans, (Fs.exec (Fs.run tr) (memoryAvailable s directoryBytes) e.1).2 = some ans → e.2.answer = ans) ∧
      Inv s' ∧ Distinct s' ∧ Sim s' (Fs.run (tr ++ [⟨s, e, s'⟩])) := by
    rintro tr s e s' ⟨hi, hd, hs⟩ ⟨ho, hex⟩
    have hmatch := sim_step hi hd hs ho hex
    have hdisk : (disk m).step s e s' := ⟨ho.vfs, hex⟩
    refine ⟨hmatch.answer, inv_step hi hdisk, hmatch.distinct, ?_⟩
    rw [Fs.run_snoc]
    exact hmatch.sim
  obtain ⟨⟨hi, hd, hs⟩, heach⟩ := Lts.Run.each_step (I := fun tr d => Inv d ∧ Distinct d ∧ Sim d (Fs.run tr))
    (Q := fun pre t => ∀ ans, (Fs.exec (Fs.run pre) (memoryAvailable t.src directoryBytes) t.label.1).2 = some ans →
      t.label.2.answer = ans) h0 hstep hr
  exact ⟨hs, heach, hs.nodup hd, refined_iff hi hd hs ho⟩

end Runs

/-- `/a` is made. -/
def made (stale : ℕ → Bool) : List (Trans Disk (Op × Reply)) :=
  [⟨Disk.start (2 ^ 20) stale, (.mkdir "/a".toList, .ofCode 0), oneDirectory stale⟩]

theorem run_made (stale : ℕ → Bool) :
    (orderly (2 ^ 20)).Run (Disk.start (2 ^ 20) stale) (made stale) (oneDirectory stale) :=
  .single ⟨⟨vfs_oneDirectory stale, ⟨["a".toList], rfl, by decide⟩, fun _ => by decide, nofun⟩, rfl⟩

theorem orderly_rmdir (stale : ℕ → Bool) : Orderly (oneDirectory stale) (.rmdir "/a".toList) :=
  ⟨⟨⟨_, rfl⟩, ⟨_, _, root, rfl, rfl⟩, nofun, nofun, nofun⟩, ⟨["a".toList], rfl, by decide⟩, fun _ => by decide, nofun⟩

/-- **A directory that is made cannot be removed**: in memory that was in use before,
`free_file` frees a pointer that was never set. -/
theorem rmdir_unset : Capacity (2 ^ 20) ∧
    (orderly (2 ^ 20)).Run (Disk.start (2 ^ 20) recycled) (made recycled) (oneDirectory recycled) ∧
    Orderly (oneDirectory recycled) (.rmdir "/a".toList) ∧
    ¬ Refined (oneDirectory recycled) (Fs.run (made recycled)) (.rmdir "/a".toList) := by
  refine ⟨megabyte, run_made recycled, orderly_rmdir recycled, ?_⟩
  rintro ⟨d', r, hex, -⟩
  have hnone : exec (oneDirectory recycled) (.rmdir "/a".toList) = none := rfl
  rw [hnone] at hex
  exact absurd hex (by simp)

/-- In zeroed memory the directory is listed, and then it is removed. -/
theorem namespace_refines_iff_made : Capacity (2 ^ 20) ∧
    (orderly (2 ^ 20)).Run (Disk.start (2 ^ 20) zeroed) (made zeroed) (oneDirectory zeroed) ∧
    Sim (oneDirectory zeroed) (Fs.run (made zeroed)) ∧ (Fs.run (made zeroed)).children [] = ["a".toList] ∧
    Refined (oneDirectory zeroed) (Fs.run (made zeroed)) (.rmdir "/a".toList) := by
  obtain ⟨hsim, -, -, hnext⟩ := namespace_refines_iff megabyte (run_made zeroed) (orderly_rmdir zeroed)
  exact ⟨megabyte, run_made zeroed, hsim, by decide, hnext.mpr fun _ _ _ _ _ _ _ _ => rfl⟩

end Ramdisk
end Csc501

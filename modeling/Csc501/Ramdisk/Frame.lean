/-
# A call leaves all other paths alone

Whatever a callback does to the lists and records on its way, it is seen under
its own path and below only: any path that does not begin with the names of
the call's path leads, before and after the call, to nothing, or to a file of
the same type, size and contents (`paths_isolated`). This holds also where a
name exists twice, and after directories were unlinked with files in them.

The reason is that every file has one path, so a walk along other names does
not pass the file the call has touched (`Outcome.frame`); and that a look-up in
the directory it has touched skips its name (`getFile_skip`).

Key definitions: `resolve`, `seen`, `Frame`.
Key theorems: `Outcome.frame`, `Frame.descend`, `paths_isolated`.
-/
import Csc501.Ramdisk.Unique

namespace Csc501
namespace Ramdisk

open Lib

/-- The file a path leads to, looked up as `rd_getattr` does. -/
def resolve (d : Disk) (path : Text) : Option (Option ℕ) :=
  if path = rootName then some (some root)
  else do
    let (fileNames, count) ← getDirs path
    match ← getParentDirectory d fileNames count with
    | none => some none
    | some q => do
      let g ← d.heap q
      let name ← fileNames[count]?
      getFile d name g.files

/-- What there is under a path: nothing, or a file with its type, its size and
its contents. -/
def seen (d : Disk) (path : Text) : Option (Option (FileType × ℕ × List UInt8)) := do
  match ← resolve d path with
  | none => some none
  | some p => do
    let f ← d.heap p
    some (some (f.type, f.size, contents f))

/-- From `d` to `d'` nothing has changed but under and below `cs`: any other
file is as it was, and so is every look-up in it of another name. -/
def Frame (d d' : Disk) (cs : List Text) : Prop :=
  ∀ l x f, At d l x → d.heap x = some f → ¬ cs <+: l → ∃ f', d'.heap x = some f' ∧
    f'.type = f.type ∧ f'.size = f.size ∧ f'.data = f.data ∧
    ∀ n, ¬ cs <+: l ++ [n] → getFile d' n f'.files = getFile d n f.files

section Lookup

variable {d d' : Disk} {n : Text}

/-- A look-up reads the names of the files in the list. -/
theorem getFile_congr : ∀ {l : List ℕ},
    (∀ p ∈ l, (d'.heap p).map RdFile.name = (d.heap p).map RdFile.name) → getFile d' n l = getFile d n l
  | [], _ => rfl
  | p :: l, h => by
    have hp := h p List.mem_cons_self
    have ih := getFile_congr fun x hx => h x (List.mem_cons_of_mem _ hx)
    unfold getFile
    cases hd : d.heap p with
    | none =>
      rw [hd, Option.map_none, Option.map_eq_none_iff] at hp
      rw [hp]
      rfl
    | some f =>
      rw [hd, Option.map_some, Option.map_eq_some_iff] at hp
      obtain ⟨f', hf', hname⟩ := hp
      simp only [hf', Option.bind_eq_bind, Option.bind_some, hname, ih]

/-- A look-up skips a file of another name. -/
theorem getFile_skip {x : ℕ} {f : RdFile} (hx : d.heap x = some f) (hn : f.name ≠ n) :
    ∀ l₁ l₂ : List ℕ, getFile d n (l₁ ++ x :: l₂) = getFile d n (l₁ ++ l₂)
  | [], l₂ => by
    simp only [List.nil_append, getFile, hx, Option.bind_eq_bind, Option.bind_some, if_neg (Ne.symm hn)]
  | p :: l₁, l₂ => by
    simp only [List.cons_append, getFile, getFile_skip hx hn l₁ l₂]

end Lookup

section Frame

variable {d d' : Disk} {op : Op} {cs : List Text} {path name : Text} {q p : ℕ} {g f : RdFile} {r : Reply}

/-- The names of a path are those of its parent and the last one. -/
theorem Found.components (h : Found d path q g name) (hs : Shape d) (habs : Absolute path) (hne : path ≠ rootName) :
    ∃ cs, components path = cs ++ [name] ∧ At d cs q := by
  obtain ⟨s, rfl⟩ := habs
  obtain ⟨names, count, h1, h2, h3⟩ := h.dirs
  rw [getDirs_absolute] at h1
  obtain ⟨rfl, rfl⟩ := Prod.mk.inj (Option.some.inj h1)
  refine ⟨(s.splitOn '/').take ((s.splitOn '/').length - 1), ?_, At.descend hs .root h2⟩
  rw [Ramdisk.components, if_neg hne, List.tail_cons]
  obtain ⟨hlt, hget⟩ := List.getElem?_eq_some_iff.mp h3
  rw [← hget, List.take_concat_get' _ _ hlt]
  have hlen : (s.splitOn '/').length - 1 + 1 = (s.splitOn '/').length := by omega
  rw [hlen, List.take_length]

/-- A file set. -/
theorem frame_setFile {f' : RdFile} (hs : Shape d) (hp : d.heap p = some f) (hat : At d cs p)
    (hname : f'.name = f.name) (hheap : d'.heap = (d.setFile p f').heap) : Frame d d' cs := by
  intro l x y hl hx hpre
  have hxp : x ≠ p := by
    rintro rfl
    exact hpre (hat.path_unique hs hl ▸ List.prefix_rfl)
  have hd' : ∀ z, d'.heap z = if z = p then some f' else d.heap z := fun z => by rw [hheap, setFile_heap]
  refine ⟨y, by rw [hd', if_neg hxp, hx], rfl, rfl, rfl, fun n _ => ?_⟩
  apply getFile_congr
  intro z _
  rw [hd']
  split_ifs with hz
  · rw [hz, hp, Option.map_some, Option.map_some, hname]
  · rfl

/-- A file added. -/
theorem frame_addFile (hs : Shape d) (hq : d.heap q = some g) (hat : At d cs q)
    (hheap : d'.heap = (addFile d q g f).heap) : Frame d d' (cs ++ [f.name]) := by
  have hqn := hs.lt_next hq
  have hd' : ∀ z, d'.heap z = if z = q then some { g with files := g.files ++ [d.next] }
      else if z = d.next then some { f with parent := some q } else d.heap z :=
    fun z => by rw [hheap, addFile_heap]
  -- the files of a list have their names
  have hold : ∀ {l : List ℕ} {n : Text}, (∀ z ∈ l, ∃ e, d.heap z = some e) → getFile d' n l = getFile d n l := by
    intro l n hlive
    apply getFile_congr
    intro z hz
    obtain ⟨e, he⟩ := hlive z hz
    rw [hd']
    split_ifs with h1 h2
    · rw [h1, hq]
      rfl
    · rw [h2, hs.fresh _ le_rfl] at he
      exact absurd he (by simp)
    · rfl
  intro l x y hl hx hpre
  by_cases hxq : x = q
  · subst hxq
    rw [hq] at hx
    obtain rfl := Option.some.inj hx
    refine ⟨{ g with files := g.files ++ [d.next] }, by rw [hd', if_pos rfl], rfl, rfl, rfl, fun n hn => ?_⟩
    obtain rfl := hat.path_unique hs hl
    have hne : f.name ≠ n := by
      rintro rfl
      exact hn List.prefix_rfl
    have hnew : d'.heap d.next = some { f with parent := some x } := by
      rw [hd', if_neg hqn.ne', if_pos rfl]
    show getFile d' n (g.files ++ [d.next]) = _
    rw [getFile_skip hnew hne, List.append_nil]
    exact hold (hs.live hq)
  · have hxn : x ≠ d.next := (hs.lt_next hx).ne
    refine ⟨y, by rw [hd', if_neg hxq, if_neg hxn, hx], rfl, rfl, rfl, fun n _ => ?_⟩
    exact hold (hs.live hx)

/-- A file taken out. -/
theorem frame_removeFile (hs : Shape d) (hq : d.heap q = some g) (hm : p ∈ g.files) (hp : d.heap p = some f)
    (hat : At d cs q) (hheap : d'.heap = (removeFile d q g p).heap) : Frame d d' (cs ++ [f.name]) := by
  have hd' : ∀ z, d'.heap z = if z = p then none
      else if z = q then some { g with files := g.files.erase p } else d.heap z :=
    fun z => by rw [hheap, removeFile_heap]
  have hpq : p ∈ filesAt d q := by rwa [filesAt_some hq]
  have hold : ∀ {l : List ℕ} {n : Text}, p ∉ l → getFile d' n l = getFile d n l := by
    intro l n hnot
    apply getFile_congr
    intro z hz
    rw [hd']
    split_ifs with h1 h2
    · exact absurd (h1 ▸ hz) hnot
    · rw [h2, hq]
      rfl
    · rfl
  intro l x y hl hx hpre
  have hxp : x ≠ p := by
    rintro rfl
    have hat' : At d (cs ++ [f.name]) x := at_concat.mpr ⟨q, hat, hpq, nameAt_some hp⟩
    exact hpre (hat'.path_unique hs hl ▸ List.prefix_rfl)
  by_cases hxq : x = q
  · subst hxq
    rw [hq] at hx
    obtain rfl := Option.some.inj hx
    refine ⟨{ g with files := g.files.erase p }, by rw [hd', if_neg hxp, if_pos rfl], rfl, rfl, rfl, fun n hn => ?_⟩
    obtain rfl := hat.path_unique hs hl
    have hne : f.name ≠ n := by
      rintro rfl
      exact hn List.prefix_rfl
    show getFile d' n (g.files.erase p) = _
    rw [hold (hs.nodup x g hq).not_mem_erase]
    obtain ⟨l₁, l₂, -, h1, h2⟩ := List.exists_erase_eq hm
    rw [h2, h1, getFile_skip hp hne]
  · refine ⟨y, by rw [hd', if_neg hxp, if_neg hxq, hx], rfl, rfl, rfl, fun n _ => ?_⟩
    apply hold
    intro hpy
    exact hxq (hs.parent_unique (by rwa [filesAt_some hx]) hpq)

/-- **What a call has done is seen under its path and below only.** -/
theorem Outcome.frame (h : Outcome d op d') (hs : Shape d) (habs : Absolute op.path) :
    Frame d d' (components op.path) := by
  cases h with
  | same => exact fun l x f _ hx _ => ⟨f, hx, rfl, rfl, rfl, fun n _ => rfl⟩
  | @set q p g f f' name b hne hfound hfile hp _ hname _ _ _ =>
    obtain ⟨cs, hcs, hq⟩ := hfound.components hs habs hne
    obtain ⟨y, hm, hy, hn⟩ := hfound.file hs hfile
    rw [hcs]
    exact frame_setFile hs hp (at_concat.mpr ⟨q, hq, by rwa [filesAt_some hfound.heap], (nameAt_some hy).trans hn⟩)
      hname rfl
  | @add q g name type b hne hfound _ _ =>
    obtain ⟨cs, hcs, hq⟩ := hfound.components hs habs hne
    rw [hcs]
    exact frame_addFile (f := createRdFile name g.name type) hs hfound.heap hq rfl
  | @remove q p g name b hne hfound hfile =>
    obtain ⟨cs, hcs, hq⟩ := hfound.components hs habs hne
    obtain ⟨f, hm, hp, rfl⟩ := hfound.file hs hfile
    rw [hcs]
    exact frame_removeFile hs hfound.heap hm hp hq rfl

/-! ### Walks along other names -/

/-- The loop of `get_parent_directory` along names that do not begin with `cs`. -/
theorem Frame.descend (h : Frame d d' cs) (hs : Shape d) : ∀ {names l : List Text} {x : ℕ}, At d l x →
    ¬ cs <+: l ++ names → Ramdisk.descend d' x names = Ramdisk.descend d x names
  | [], _, _, _, _ => rfl
  | n :: names, l, x, hl, hpre => by
    obtain ⟨f, hx⟩ := hl.live hs
    have hrest : l ++ n :: names = (l ++ [n]) ++ names := by simp
    have hpre₁ : ¬ cs <+: l ++ [n] := fun hp => hpre (hrest ▸ hp.trans (List.prefix_append _ _))
    have hpre₀ : ¬ cs <+: l := fun hp => hpre₁ (hp.trans (List.prefix_append _ _))
    obtain ⟨f', hf', -, -, -, hfiles⟩ := h l x f hl hx hpre₀
    simp only [Ramdisk.descend, hf', hx, Option.bind_eq_bind, Option.bind_some, hfiles n hpre₁]
    rcases getFile_cases n (hs.live hx) with ⟨hg, -⟩ | ⟨y, e, hg, hm, hy, hn⟩
    · rw [hg]
      rfl
    · have hly : At d (l ++ [n]) y :=
        at_concat.mpr ⟨x, hl, by rwa [filesAt_some hx], (nameAt_some hy).trans hn⟩
      obtain ⟨e', he', htype, -⟩ := h _ y e hly hy hpre₁
      simp only [hg, Option.bind_some, he', hy, htype]
      rw [h.descend hs hly (hrest ▸ hpre)]

/-- What is found under a path that does not begin with `cs`. -/
theorem Frame.seen (h : Frame d d' cs) (hs : Shape d) (habs : Absolute path) (hpre : ¬ cs <+: components path) :
    ∃ a, seen d path = some a ∧ seen d' path = some a := by
  -- a file that is found is as it was
  have hfile : ∀ {l x}, At d l x → ¬ cs <+: l → ∃ a : FileType × ℕ × List UInt8,
      (d.heap x).bind (fun f => some (some (f.type, f.size, contents f))) = some (some a) ∧
      (d'.heap x).bind (fun f => some (some (f.type, f.size, contents f))) = some (some a) := by
    intro l x hl hno
    obtain ⟨f, hx⟩ := hl.live hs
    obtain ⟨f', hf', h1, h2, h3, -⟩ := h l x f hl hx hno
    refine ⟨(f.type, f.size, contents f), by rw [hx]; rfl, ?_⟩
    simp only [hf', Option.bind_some, contents, h1, h2, h3]
  by_cases hroot : path = rootName
  · have hno : ¬ cs <+: [] := by simpa [components, hroot] using hpre
    obtain ⟨a, h1, h2⟩ := hfile .root hno
    refine ⟨some a, ?_, ?_⟩
    · simpa [Ramdisk.seen, resolve, hroot] using h1
    · simpa [Ramdisk.seen, resolve, hroot] using h2
  · obtain ⟨s, rfl⟩ := habs
    set names := s.splitOn '/' with hnames
    have hcomp : components ('/' :: s) = names := by rw [components, if_neg hroot, List.tail_cons]
    have hpos : 0 < names.length := List.length_pos_iff.mpr (List.splitOn_ne_nil '/' s)
    have hlast : names = names.take (names.length - 1) ++ [names[names.length - 1]] := by
      rw [List.take_concat_get' _ _ (by omega), Nat.sub_add_cancel hpos, List.take_length]
    rw [hcomp] at hpre
    have hget : names[names.length - 1]? = some names[names.length - 1] := List.getElem?_eq_getElem (by omega)
    have hdesc : Ramdisk.descend d' root (names.take (names.length - 1)) =
        Ramdisk.descend d root (names.take (names.length - 1)) := by
      apply h.descend hs .root
      intro hp
      exact hpre (hp.trans (List.take_prefix _ _))
    simp only [Ramdisk.seen, resolve, if_neg hroot, getDirs_absolute, ← hnames, getParentDirectory, hdesc, hget,
      Option.bind_eq_bind, Option.bind_some]
    obtain ⟨r, hr, -⟩ := hs.root
    obtain ⟨o, ho⟩ := hs.descend_total (names.take (names.length - 1)) hr
    rw [ho]
    cases o with
    | none => exact ⟨none, rfl, rfl⟩
    | some q =>
      have hq : At d (names.take (names.length - 1)) q := At.descend hs .root ho
      obtain ⟨g, hg⟩ := hq.live hs
      have hpre₀ : ¬ cs <+: names.take (names.length - 1) := fun hp => hpre (hp.trans (List.take_prefix _ _))
      obtain ⟨g', hg', -, -, -, hfiles⟩ := h _ q g hq hg hpre₀
      rw [hlast] at hpre
      simp only [Option.bind_some, hg, hg', hfiles _ hpre]
      rcases getFile_cases names[names.length - 1] (hs.live hg) with ⟨hf, -⟩ | ⟨x, f, hf, hm, hx, hn⟩
      · rw [hf]
        exact ⟨none, rfl, rfl⟩
      · rw [hf]
        obtain ⟨a, h1, h2⟩ := hfile (at_concat.mpr ⟨q, hq, by rwa [filesAt_some hg], (nameAt_some hx).trans hn⟩) hpre
        exact ⟨some a, h1, h2⟩

end Frame

/-- **Paths are isolated.** In every state that any calls bring about, a call
that returns, with success or with an error, leaves what there is under every
path that does not begin with its own. -/
theorem paths_isolated {m : ℤ} {d d' : Disk} {op : Op} {r : Reply} {path : Text} (hd : (calls m).Reachable d)
    (hop : Absolute op.path) (hex : exec d op = some (d', r)) (habs : Absolute path)
    (hpre : ¬ components op.path <+: components path) :
    ∃ a, seen d path = some a ∧ seen d' path = some a := by
  have hs := sound_reachable hd
  exact ((exec_outcome hs hop hex).frame hs.shape hop).seen hs.shape habs hpre

/-- `/b` is created beside the file `/a`. -/
theorem paths_isolated_create : (calls (2 ^ 20)).Reachable oneFile ∧
    ∃ d' r, exec oneFile (.create "/b".toList) = some (d', r) ∧
      ∃ a, seen oneFile "/a".toList = some a ∧ seen d' "/a".toList = some a := by
  have hd : (calls (2 ^ 20)).Reachable oneFile :=
    ⟨_, _, ⟨_, rfl⟩, .single (a := (.create "/a".toList, .ofCode 0)) ⟨⟨_, rfl⟩, rfl⟩⟩
  have habs : Absolute (Op.create "/b".toList).path := ⟨_, rfl⟩
  exact ⟨hd, _, _, rfl, paths_isolated hd habs rfl ⟨_, rfl⟩ (by decide)⟩

end Ramdisk
end Csc501

/-
# Names that exist twice

`rd_mkdir` refuses a name that is there with `-EEXIST`. `rd_create` does not
look: it puts a second file of that name behind the first, where no look-up
finds it until the first is gone. This is the only way to two entries of one
name. Over runs of any calls, every state has distinct names and every call that
would create a name that is there is refused exactly if no `rd_create` of the
run is for a file that is there (`unique_names_iff`).

Key definitions: `NamesKept`, `CreatesNew`.
Key theorems: `Outcome.distinct`, `namesKept_iff`, `unique_names_iff`, `create_twice`.
-/
import Csc501.Ramdisk.Calls
import Csc501.Ramdisk.Namespace

namespace Csc501
namespace Ramdisk

open Lib

/-- What is to hold of the names after a call: they are distinct in every
directory, and a name that was to be created and is there was refused, or is
there only once. -/
structure NamesKept (t : Trans Disk (Op × Reply)) : Prop where
  distinct : Distinct t.dst
  existing : ∀ path p, t.label.1 = .create path ∨ t.label.1 = .mkdir path → getRdFile t.src path = some (some p) →
    t.label.2.code < 0 ∧ t.dst = t.src ∨
      ∀ q x, p ∈ filesAt t.dst q → x ∈ filesAt t.dst q → nameAt t.dst x = nameAt t.dst p → x = p

/-- The call is no `rd_create` of a file that is there. -/
def CreatesNew (t : Trans Disk (Op × Reply)) : Prop :=
  ∀ path p, t.label.1 = .create path → validPath path = true → getRdFile t.src path ≠ some (some p)

section Step

variable {d d' : Disk} {q p : ℕ} {g : RdFile} {op : Op} {r : Reply} {path name : Text}

/-- Taking a file out, also a directory with files, leaves names distinct. -/
theorem distinct_removeFile (hq : d.heap q = some g) (hs : Shape d) (hm : p ∈ g.files)
    (hheap : d'.heap = (removeFile d q g p).heap) (hd : Distinct d) : Distinct d' := by
  have hx : ∀ x, d'.heap x = if x = p then none
      else if x = q then some { g with files := g.files.erase p } else d.heap x :=
    fun x => by rw [hheap, removeFile_heap]
  have hsub : ∀ x, (filesAt d' x).Sublist (filesAt d x) ∧ p ∉ filesAt d' x := by
    intro x
    by_cases hxp : x = p
    · simp [filesAt, hx, hxp]
    · by_cases hxq : x = q
      · subst hxq
        have hfiles : filesAt d' x = g.files.erase p := by simp [filesAt, hx, hxp]
        rw [hfiles, filesAt_some hq]
        exact ⟨List.erase_sublist, (hs.nodup x g hq).not_mem_erase⟩
      · have hfiles : filesAt d' x = filesAt d x := by simp [filesAt, hx, hxp, hxq]
        rw [hfiles]
        refine ⟨List.Sublist.refl _, fun hmem => hxq ?_⟩
        exact hs.parent_unique hmem (by rwa [filesAt_some hq])
  have hname : ∀ x, x ≠ p → nameAt d' x = nameAt d x := by
    intro x hxp
    by_cases hxq : x = q
    · subst hxq
      simp [nameAt, hx, hxp, hq]
    · simp [nameAt, hx, hxp, hxq]
  intro x
  obtain ⟨h1, h2⟩ := hsub x
  have hmap : (filesAt d' x).map (nameAt d') = (filesAt d' x).map (nameAt d) := by
    apply List.map_congr_left
    intro y hy
    exact hname y fun heq => h2 (heq ▸ hy)
  rw [hmap]
  exact (hd x).sublist (h1.map _)

theorem getFile_none_iff (hs : Shape d) (hq : d.heap q = some g) :
    getFile d name g.files = some none ↔ name ∉ (filesAt d q).map (nameAt d) := by
  rw [filesAt_some hq]
  rcases getFile_cases name (hs.live hq) with ⟨h1, h2⟩ | ⟨x, f, h1, hm, hx, hn⟩
  · refine ⟨fun _ hmem => ?_, fun _ => h1⟩
    obtain ⟨y, hy, hyn⟩ := List.mem_map.mp hmem
    obtain ⟨f, hf⟩ := hs.live hq y hy
    exact h2 y hy f hf ((nameAt_some hf).symm.trans hyn)
  · rw [h1]
    refine ⟨fun h => absurd h (by simp), fun h => absurd ?_ h⟩
    exact List.mem_map.mpr ⟨x, hm, (nameAt_some hx).trans hn⟩

/-- A file that is added leaves names distinct exactly if its name is new. -/
theorem distinct_addFile_iff {type : FileType} (hs : Shape d) (hq : d.heap q = some g) (hd : Distinct d)
    (hheap : d'.heap = (addFile d q g (createRdFile name g.name type)).heap) :
    Distinct d' ↔ getFile d name g.files = some none := by
  have hadd := added_of_heap hs hq hheap
  rw [getFile_none_iff hs hq]
  constructor
  · intro hd' hmem
    have hnodup := hd' q
    rw [hadd.names hs, if_pos rfl] at hnodup
    exact (List.nodup_append.mp hnodup).2.2 name hmem name (List.mem_singleton_self _) rfl
  · intro hnew x
    rw [hadd.names hs]
    split_ifs with hx
    · subst hx
      rw [← List.concat_eq_append]
      exact (hd x).concat hnew
    · exact hd x

/-- **One call keeps names distinct**, unless it creates a file that is there. -/
theorem Outcome.distinct (h : Outcome d op d') (hs : Shape d) (hd : Distinct d)
    (hnew : ∀ path p, op = .create path → validPath path = true → getRdFile d path ≠ some (some p)) :
    Distinct d' := by
  cases h with
  | same => exact hd
  | @set q p g f f' name b _ _ _ hp htype hname _ hfiles _ =>
    exact (unseen_of_heap f' hp hname htype hfiles rfl).distinct hd
  | @add q g name type b _ hfound _ hwhy =>
    apply (distinct_addFile_iff hs hfound.heap hd rfl).mpr
    rcases hwhy with ⟨path, hop, hval⟩ | hnone
    · subst hop
      rcases getFile_cases name (hs.live hfound.heap) with ⟨h1, -⟩ | ⟨x, f, h1, -⟩
      · exact h1
      · exact absurd (hfound.getRdFile.trans h1) (hnew path x rfl hval)
    · exact hnone
  | remove b _ hfound hfile =>
    obtain ⟨f, hm, -⟩ := hfound.file hs hfile
    exact distinct_removeFile hfound.heap hs hm rfl hd

/-- `rd_mkdir` refuses a name that is there, and so does `rd_create` a path that
ends in a slash. -/
theorem mkdir_existing (hs : Shape d) (habs : Absolute path) (hfile : getRdFile d path = some (some p))
    (hex : rdMkdir d path = some (d', r)) : r.code < 0 ∧ d' = d := by
  rcases parent_cases hs habs with ⟨q, g, name, h⟩ | h
  · rw [h.getRdFile] at hfile
    rw [h.rdMkdir, hfile] at hex
    split_ifs at hex
    all_goals
      obtain ⟨rfl, rfl⟩ := Prod.mk.inj (Option.some.inj hex)
      exact ⟨by decide, rfl⟩
  · rw [h.getRdFile] at hfile
    exact absurd hfile (by simp)

theorem create_refused (hval : ¬ validPath path = true) (hex : rdCreate d path = some (d', r)) :
    r.code < 0 ∧ d' = d := by
  have hbad : (decide (path = rootName) || endsWith path rootName) = true := by
    simpa only [validPath, Bool.not_eq_true, Bool.not_eq_false'] using hval
  rw [rdCreate, if_pos hbad] at hex
  obtain ⟨rfl, rfl⟩ := Prod.mk.inj (Option.some.inj hex)
  exact ⟨by decide, rfl⟩

/-- A second file of one name. -/
theorem create_existing (hs : Shape d) (hd : Distinct d) (habs : Absolute path) (hval : validPath path = true)
    (hfile : getRdFile d path = some (some p)) (hex : rdCreate d path = some (d', r)) : ¬ Distinct d' := by
  rcases parent_cases hs habs with ⟨q, g, name, h⟩ | h
  · have hgood : ¬ (decide (path = rootName) || endsWith path rootName) = true := by
      simpa [validPath] using hval
    rw [h.rdCreate, if_neg hgood] at hex
    rw [h.getRdFile] at hfile
    obtain ⟨rfl, -⟩ := Prod.mk.inj (Option.some.inj hex)
    rw [distinct_addFile_iff hs h.heap hd rfl, hfile]
    simp
  · rw [h.getRdFile] at hfile
    exact absurd hfile (by simp)

/-- **Which calls keep names unique.** -/
theorem namesKept_iff {m : ℤ} {e : Op × Reply} (hs : Sound d) (hd : Distinct d) (hst : (calls m).step d e d') :
    NamesKept ⟨d, e, d'⟩ ↔ CreatesNew ⟨d, e, d'⟩ := by
  obtain ⟨habs, hex⟩ := hst
  obtain ⟨op, r⟩ := e
  constructor
  · intro h path p hop hval hfile
    have hop' : op = .create path := hop
    subst hop'
    exact create_existing hs.shape hd habs hval hfile hex h.distinct
  · intro h
    refine ⟨(exec_outcome hs habs hex).distinct hs.shape hd h, fun path p hop hfile => Or.inl ?_⟩
    rcases hop with hop | hop
    · have hop' : op = .create path := hop
      subst hop'
      exact create_refused (fun hval => h path p rfl hval hfile) hex
    · have hop' : op = .mkdir path := hop
      subst hop'
      exact mkdir_existing hs.shape habs hfile hex

end Step

theorem distinct_start (m : ℤ) (stale : ℕ → Bool) : Distinct (Disk.start m stale) := by
  intro q
  rw [filesAt_start]
  exact List.nodup_nil

section Runs

variable {m : ℤ} {stale : ℕ → Bool} {tr : List (Trans Disk (Op × Reply))} {d : Disk}

theorem distinct_of_namesKept (hr : (calls m).Run (Disk.start m stale) tr d) (h : ∀ t ∈ tr, NamesKept t) :
    Distinct d := by
  cases hr with
  | nil => exact distinct_start m stale
  | snoc _ _ => exact (h _ (List.mem_append_right _ (List.mem_singleton_self _))).distinct

/-- **Names are unique in a run exactly if no `rd_create` in it is for a file
that is there.** -/
theorem unique_names_iff (hr : (calls m).Run (Disk.start m stale) tr d) :
    (Distinct (Disk.start m stale) ∧ ∀ t ∈ tr, NamesKept t) ↔ ∀ t ∈ tr, CreatesNew t := by
  induction hr with
  | nil => simp [distinct_start]
  | @snoc s s' tr e hr hst ih =>
    simp only [distinct_start, true_and, List.mem_append, List.mem_singleton, or_imp, forall_and,
      forall_eq] at ih ⊢
    have hstep : (∀ t ∈ tr, NamesKept t) → (NamesKept ⟨s, e, s'⟩ ↔ CreatesNew ⟨s, e, s'⟩) :=
      fun h => namesKept_iff (sound_run hr) (distinct_of_namesKept hr h) hst
    constructor
    · intro ⟨h1, h2⟩
      exact ⟨ih.mp h1, (hstep h1).mp h2⟩
    · intro ⟨h1, h2⟩
      exact ⟨ih.mpr h1, (hstep (ih.mpr h1)).mpr h2⟩

end Runs

/-- A disk of 1 MB with the file `/a`. -/
def oneFile : Disk :=
  addFile (Disk.start (2 ^ 20) zeroed) root (createRdFile rootName [] .directory)
    (createRdFile "a".toList rootName .regular)

/-- A disk of 1 MB with two files `/a`. -/
def twoFiles : Disk :=
  addFile oneFile root { createRdFile rootName [] .directory with files := [1] }
    (createRdFile "a".toList rootName .regular)

/-- `/a` is created twice. -/
def createdTwice : List (Trans Disk (Op × Reply)) :=
  [⟨Disk.start (2 ^ 20) zeroed, (.create "/a".toList, .ofCode 0), oneFile⟩,
    ⟨oneFile, (.create "/a".toList, .ofCode 0), twoFiles⟩]

theorem step_oneFile : (calls (2 ^ 20)).step (Disk.start (2 ^ 20) zeroed) (.create "/a".toList, .ofCode 0) oneFile :=
  ⟨⟨_, rfl⟩, rfl⟩

theorem run_createdTwice : (calls (2 ^ 20)).Run (Disk.start (2 ^ 20) zeroed) createdTwice twoFiles := by
  have h2 : (calls (2 ^ 20)).step oneFile (.create "/a".toList, .ofCode 0) twoFiles := ⟨⟨_, rfl⟩, rfl⟩
  exact ((Lts.Run.nil _).snoc step_oneFile).snoc h2

theorem not_kept_createdTwice : ¬ ∀ t ∈ createdTwice, NamesKept t := by
  intro h
  have hlast : Distinct twoFiles := (h _ (List.mem_cons_of_mem _ (List.mem_singleton_self _))).distinct
  exact absurd (hlast root) (by decide)

/-- **A name that exists twice**: the second `rd_create` is not refused, and the
root has two files of one name. -/
theorem create_twice : (calls (2 ^ 20)).Run (Disk.start (2 ^ 20) zeroed) createdTwice twoFiles ∧
    ¬ (Distinct (Disk.start (2 ^ 20) zeroed) ∧ ∀ t ∈ createdTwice, NamesKept t) := by
  exact ⟨run_createdTwice, fun h => not_kept_createdTwice h.2⟩

/-- `/a` is created, and the directory `/b`. -/
def createdBoth : List (Trans Disk (Op × Reply)) :=
  [⟨Disk.start (2 ^ 20) zeroed, (.create "/a".toList, .ofCode 0), oneFile⟩,
    ⟨oneFile, (.mkdir "/b".toList, .ofCode 0),
      { addFile oneFile root { createRdFile rootName [] .directory with files := [1] }
        (createRdFile "b".toList rootName .directory) with currentBytes := directoryBytes }⟩]

/-- Names are kept when two files are made, and are not when one is made twice. -/
theorem unique_names_iff_createdBoth :
    (∀ t ∈ createdBoth, NamesKept t) ∧ ¬ ∀ t ∈ createdTwice, CreatesNew t := by
  have h2 : (calls (2 ^ 20)).step oneFile (.mkdir "/b".toList, .ofCode 0) _ := ⟨⟨"b".toList, rfl⟩, rfl⟩
  have hboth := ((Lts.Run.nil _).snoc step_oneFile).snoc h2
  have hnew : ∀ t ∈ createdBoth, CreatesNew t := by
    intro t ht
    simp only [createdBoth, List.mem_cons, List.not_mem_nil, or_false] at ht
    rcases ht with rfl | rfl
    · rintro path p ⟨⟩ - h
      have hnone : getRdFile (Disk.start (2 ^ 20) zeroed) "/a".toList = some none := rfl
      exact absurd (hnone.symm.trans h) (by simp)
    · rintro path p ⟨⟩
  refine ⟨((unique_names_iff hboth).mpr hnew).2, fun h => ?_⟩
  exact not_kept_createdTwice ((unique_names_iff run_createdTwice).mpr h).2

end Ramdisk
end Csc501

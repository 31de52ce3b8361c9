/-
# The nodes are the lists

The RAM disk in memory (`Ramdisk.Memory`) does what the RAM disk of lists (`Ramdisk.Disk`)
does. In memory each directory has a chain of nodes of its own, whose values are the list of
its files (`Represents`); each callback keeps it that way and returns the same
(`exec_follows`), so the two levels have the same runs. No node is lost: as long as only
regular files are unlinked, the nodes allocated are those of the directories that are there.

Key definitions: `Represents`, `linkedCalls`, `linkedDisk`.
Key theorems: `push_eq`, `deleteItem_found`, `Represents.addFile`, `Represents.removeItem`,
`exec_follows`.
-/
import Csc501.Lib.Simulation
import Csc501.Ramdisk.Calls
import Csc501.Ramdisk.Memory
import Csc501.Ramdisk.Space

namespace Csc501
namespace Ramdisk

open Lib

/-! ### One list -/

section Lists

variable {h : Heap ℕ}

/-- The loop of `push` stops at the last node. -/
theorem lastNode_eq {b y : ℕ} : ∀ {l : List (ℕ × ℕ)} {a fuel : ℕ}, Chain h (some a) (l ++ [(b, y)]) none →
    Memory.lastNode h fuel a = if l.length < fuel then some b else none
  | _, _, 0, _ => by simp [Memory.lastNode]
  | [], a, fuel + 1, hc => by
    obtain ⟨hp, n, hn, rfl⟩ := hc
    obtain rfl := Option.some.inj hp
    simp [Memory.lastNode, hn]
  | (a', x) :: l, a, fuel + 1, hc => by
    obtain ⟨hp, n, hn, hc⟩ := hc
    obtain rfl := Option.some.inj hp
    obtain ⟨c, rfl⟩ : ∃ c, n = some c := by
      cases l with
      | nil => exact ⟨b, hc.1⟩
      | cons z l => exact ⟨z.1, hc.1⟩
    simp only [Memory.lastNode, hn, Option.bind_eq_bind, Option.bind_some]
    rw [lastNode_eq hc, List.length_cons]
    simp only [Nat.add_lt_add_iff_right]

/-- **`push` adds at the end.** -/
theorem push_eq {l : List (ℕ × ℕ)} {a node : ℕ} (hc : Chain h (some a) l none) (hl : l ≠ [])
    (hnode : h node = none) (fuel file : ℕ) :
    ∃ h', Memory.push h fuel a file node = (if l.length ≤ fuel then some h' else none) ∧
      Chain h' (some a) (l ++ [(node, file)]) none ∧ ∀ b, b ≠ node → b ∉ addresses l → h' b = h b := by
  obtain ⟨l, ⟨b, y⟩, rfl⟩ := (List.eq_nil_or_concat' l).resolve_left hl
  have hfresh : node ∉ addresses (l ++ [(b, y)]) := fun hm => hc.live hm hnode
  have hb : b ∉ addresses l := last_fresh hc.nodup
  have hne : b ≠ node := by
    rintro rfl
    exact hfresh (by simp)
  obtain ⟨r, -, rfl, n, hn, rfl⟩ := chain_append.mp hc
  have hold : (Function.update h node (some ⟨file, none⟩) : Heap ℕ) b = some ⟨y, none⟩ := by
    rw [Function.update_of_ne hne, hn]
  refine ⟨Function.update (Function.update h node (some ⟨file, none⟩)) b (some ⟨y, some node⟩), ?_, ?_, ?_⟩
  · simp only [Memory.push, lastNode_eq hc, List.length_append, List.length_singleton, Nat.lt_iff_add_one_le]
    by_cases hf : l.length + 1 ≤ fuel
    · simp only [if_pos hf, Option.bind_eq_bind, Option.bind_some, hold]
    · simp only [if_neg hf, Option.bind_eq_bind, Option.bind_none]
  · refine chain_append.mpr ⟨some node, ?_, rfl, none, ?_, rfl⟩
    · exact (hc.update hfresh).relink hb (some node)
    · rw [Function.update_of_ne (Ne.symm hne), Function.update_self]
  · intro c hcn hcl
    have hcb : c ≠ b := by
      rintro rfl
      exact hcl (by simp)
    rw [Function.update_of_ne hcb, Function.update_of_ne hcn]

theorem nodeCount_eq : ∀ {l : List (ℕ × ℕ)} {a x fuel n : ℕ}, Chain h (some a) ((a, x) :: l) none →
    Memory.countLoop h fuel a n = if l.length < fuel then some (n + l.length) else none
  | _, _, _, 0, _, _ => by simp [Memory.countLoop]
  | [], a, x, fuel + 1, n, hc => by
    obtain ⟨-, k, hk, rfl⟩ := hc
    simp [Memory.countLoop, hk]
  | (b, y) :: l, a, x, fuel + 1, n, hc => by
    obtain ⟨-, k, hk, hc⟩ := hc
    obtain rfl := hc.1
    simp only [Memory.countLoop, hk, Option.bind_eq_bind, Option.bind_some]
    rw [nodeCount_eq hc, List.length_cons]
    simp only [Nat.add_lt_add_iff_right, Nat.add_assoc, Nat.add_comm 1]

/-- **`get_count` counts the nodes.** -/
theorem getCount_eq {l : List (ℕ × ℕ)} {p : Option ℕ} {fuel : ℕ} (hc : Chain h p l none) :
    Memory.getCount h fuel p = if l.length ≤ fuel then some l.length else none := by
  cases l with
  | nil =>
    obtain rfl : p = none := hc
    simp [Memory.getCount]
  | cons z l =>
    obtain ⟨a, x⟩ := z
    obtain rfl := hc.1
    simp only [Memory.getCount, nodeCount_eq hc, List.length_cons, Nat.lt_iff_add_one_le, Nat.add_comm 1]

/-- **`delete_item` takes out the first node of the file**, and frees the two, if it may
free the data of the file. -/
theorem deleteItem_found {m : Memory} {item a : ℕ} {F : LinkedFile} (hF : m.files item = some F)
    {suf : List (ℕ × ℕ)} : ∀ {pre : List (ℕ × ℕ)} {p : Option ℕ}, Chain m.nodes p (pre ++ (a, item) :: suf) none →
    item ∉ values pre →
    ∃ p' h', (∀ fuel, Memory.deleteItem item fuel m p =
        if pre.length < fuel ∧ ¬ (F.data = none ∧ m.stale item) then
          some ({ m with nodes := h', files := Function.update m.files item none }, p') else none) ∧
      Chain h' p' (pre ++ suf) none ∧ h' a = none ∧ ∀ b, b ∉ addresses (pre ++ [(a, item)]) → h' b = m.nodes b
  | [], p, hc, _ => by
    have ha : a ∉ addresses suf := (List.nodup_cons.mp hc.nodup).1
    obtain ⟨rfl, n, hn, hsuf⟩ := hc
    refine ⟨n, Function.update m.nodes a none, ?_, hsuf.update ha, by simp, ?_⟩
    · intro fuel
      cases fuel with
      | zero => rfl
      | succ fuel =>
        simp only [Memory.deleteItem, hn, Memory.freeFile, hF, Option.bind_eq_bind, Option.bind_some, if_true,
          List.length_nil, Nat.zero_lt_succ, true_and]
        by_cases hk : F.data = none ∧ m.stale item = true
        · rw [if_pos hk, if_neg (not_not.mpr hk), Option.bind_none]
        · rw [if_neg hk, if_pos hk, Option.bind_some]
    · intro b hb
      rw [Function.update_of_ne]
      rintro rfl
      exact hb (by simp)
  | (b, x) :: pre, p, hc, hx => by
    have hnd := hc.nodup
    obtain ⟨rfl, n, hn, hc⟩ := hc
    rw [values_cons, List.mem_cons, not_or] at hx
    rw [List.cons_append, addresses_cons, addresses_append, addresses_cons, List.nodup_cons, List.mem_append,
      List.mem_cons, not_or, not_or] at hnd
    obtain ⟨⟨hpre, hab, hsuf⟩, -⟩ := hnd
    obtain ⟨p', h', hrun, hc', ha', hsame⟩ := deleteItem_found hF hc hx.2
    have hb : h' b = some ⟨x, n⟩ := by
      rw [hsame b (by simp [hpre, hab]), hn]
    -- on the way back the node in front is linked to what the recursion returned
    refine ⟨some b, Function.update h' b (some ⟨x, p'⟩), ?_, ⟨rfl, p', by simp, hc'.update (by simp [hpre, hsuf])⟩,
      ?_, ?_⟩
    · intro fuel
      cases fuel with
      | zero => rfl
      | succ fuel =>
        simp only [Memory.deleteItem, hn, Option.bind_eq_bind, Option.bind_some, if_neg (Ne.symm hx.1), hrun,
          List.length_cons, Nat.add_lt_add_iff_right]
        by_cases hf : pre.length < fuel ∧ ¬ (F.data = none ∧ m.stale item = true)
        · simp only [if_pos hf, Option.bind_some, hb]
        · simp only [if_neg hf, Option.bind_none]
    · rw [Function.update_of_ne (Ne.symm hab), ha']
    · intro c hcm
      rw [List.cons_append, addresses_cons, List.mem_cons, not_or] at hcm
      rw [Function.update_of_ne hcm.1, hsame c hcm.2]

/-- A file that is not in the list is not found. -/
theorem deleteItem_absent {m : Memory} {item : ℕ} : ∀ {l : List (ℕ × ℕ)} {p : Option ℕ} {fuel : ℕ},
    Chain m.nodes p l none → item ∉ values l →
    Memory.deleteItem item fuel m p = if l.length < fuel then some (m, p) else none
  | _, _, 0, _, _ => by simp [Memory.deleteItem]
  | [], p, fuel + 1, hc, _ => by
    obtain rfl : p = none := hc
    simp [Memory.deleteItem]
  | (b, x) :: l, p, fuel + 1, hc, hx => by
    obtain ⟨rfl, n, hn, hc⟩ := hc
    rw [values_cons, List.mem_cons, not_or] at hx
    have hsame : Function.update m.nodes b (some ⟨x, n⟩) = m.nodes := by
      rw [← hn, Function.update_eq_self]
    simp only [Memory.deleteItem, hn, Option.bind_eq_bind, Option.bind_some, if_neg (Ne.symm hx.1),
      deleteItem_absent hc hx.2, List.length_cons, Nat.add_lt_add_iff_right]
    by_cases hf : l.length < fuel
    · simp only [if_pos hf, Option.bind_some, hn, hsame]
    · simp only [if_neg hf, Option.bind_none]

/-- An empty list has no first node. -/
theorem null_iff {l : List (ℕ × ℕ)} {p : Option ℕ} (hc : Chain h p l none) : p = none ↔ l = [] := by
  cases l with
  | nil => simpa [Chain] using hc
  | cons z l => simp [hc.1]

end Lists

/-! ### All lists -/

/-- The disk `d` is in the memory `m`: the files of `p` hang on the nodes `lists p`, and no
node is in two lists. If `tidy`, no other node is allocated. -/
structure Represents (tidy : Prop) (m : Memory) (d : Disk) (lists : ℕ → List (ℕ × ℕ)) : Prop where
  maxBytes : m.maxBytes = d.maxBytes
  currentBytes : m.currentBytes = d.currentBytes
  next : m.next = d.next
  stale : m.stale = d.stale
  file : ∀ p, d.heap p = (m.files p).map fun F => F.view (values (lists p))
  chain : ∀ p F, m.files p = some F → Chain m.nodes F.files (lists p) none
  apart : ∀ p p' a, m.files p ≠ none → m.files p' ≠ none → a ∈ addresses (lists p) → a ∈ addresses (lists p') →
    p = p'
  owned : tidy → ∀ a, m.nodes a ≠ none → ∃ p, m.files p ≠ none ∧ a ∈ addresses (lists p)

/-- Some lists show the disk `d` in the memory `m`. -/
def Shows (tidy : Prop) (m : Memory) (d : Disk) : Prop := ∃ lists, Represents tidy m d lists

theorem represents_start (maxBytes : ℤ) (stale : ℕ → Bool) :
    Represents True (.start maxBytes stale) (.start maxBytes stale) fun _ => [] := by
  refine ⟨rfl, rfl, rfl, rfl, ?_, ?_, by simp, fun _ a ha => absurd rfl ha⟩
  · intro p
    by_cases hp : p = root <;> simp [Memory.start, Disk.start, hp, LinkedFile.view, LinkedFile.create, createRdFile]
  · intro p F hF
    obtain ⟨-, rfl⟩ : p = root ∧ LinkedFile.create rootName [] .directory = F := by simpa [Memory.start] using hF
    rfl

section Represented

variable {tidy : Prop} {m : Memory} {d : Disk} {lists : ℕ → List (ℕ × ℕ)}

/-- A file at both levels. -/
theorem Represents.heap (R : Represents tidy m d lists) {p : ℕ} {F : LinkedFile} (hF : m.files p = some F) :
    d.heap p = some (F.view (values (lists p))) := by
  rw [R.file, hF, Option.map_some]

theorem Represents.files (R : Represents tidy m d lists) {ok : Prop} (p : ℕ) :
    Follows ok (fun F f => m.files p = some F ∧ d.heap p = some f ∧ f = F.view (values (lists p)))
      (m.files p) (d.heap p) := by
  rw [R.file p]
  cases hF : m.files p with
  | none => exact .neither
  | some F => exact .both ⟨rfl, rfl, rfl⟩

theorem Represents.bytes (R : Represents tidy m d lists) (z : ℤ) :
    Represents tidy { m with currentBytes := z } { d with currentBytes := z } lists :=
  ⟨R.maxBytes, rfl, R.next, R.stale, R.file, R.chain, R.apart, R.owned⟩

/-- A file is changed, but not its list. -/
theorem Represents.setFile (R : Represents tidy m d lists) {p : ℕ} {F F' : LinkedFile} (hF : m.files p = some F)
    (hfiles : F'.files = F.files) :
    Represents tidy (m.setFile p F') (d.setFile p (F'.view (values (lists p)))) lists := by
  have hlive : ∀ x, (m.setFile p F').files x ≠ none ↔ m.files x ≠ none := by
    intro x
    by_cases hx : x = p
    · subst hx
      simp [Memory.setFile, hF]
    · simp [Memory.setFile, hx]
  refine ⟨R.maxBytes, R.currentBytes, R.next, R.stale, ?_, ?_, ?_, ?_⟩
  · intro x
    by_cases hx : x = p
    · subst hx
      simp [Memory.setFile, Disk.setFile]
    · simp [Memory.setFile, Disk.setFile, hx, R.file x]
  · intro x G hG
    by_cases hx : x = p
    · subst hx
      obtain rfl : F' = G := by simpa [Memory.setFile] using hG
      rw [hfiles]
      exact R.chain x F hF
    · exact R.chain x G (by simpa [Memory.setFile, hx] using hG)
  · intro x y a hx hy
    exact R.apart x y a ((hlive x).mp hx) ((hlive y).mp hy)
  · intro ht a ha
    obtain ⟨x, hx, hm⟩ := R.owned ht a ha
    exact ⟨x, (hlive x).mpr hx, hm⟩

/-- The nodes in front of a node of a list, those behind it, and no other list. -/
theorem Represents.elsewhere (R : Represents tidy m d lists) {q x : ℕ} {G X : LinkedFile} (hG : m.files q = some G)
    (hX : m.files x = some X) (hne : x ≠ q) {a : ℕ} (ha : a ∈ addresses (lists x)) : a ∉ addresses (lists q) :=
  fun hm => hne (R.apart x q a (by simp [hX]) (by simp [hG]) ha hm)

/-- A new file, with a node behind those of the directory `q`. -/
theorem Represents.extend (R : Represents tidy m d lists) (hs : Shape d) {q node : ℕ} {G F : LinkedFile}
    (hG : m.files q = some G) (hnode : m.nodes node = none) (hF : F.files = none) {head : Option ℕ} {h : Heap ℕ}
    (hc : Chain h head (lists q ++ [(node, m.next)]) none)
    (hframe : ∀ b, b ≠ node → b ∉ addresses (lists q) → h b = m.nodes b) :
    Represents tidy { m with
        files := Function.update (Function.update m.files m.next (some { F with parent := some q })) q
          (some { G with files := head })
        nodes := h
        next := m.next + 1 }
      (addFile d q (G.view (values (lists q))) (F.view []))
      (Function.update (Function.update lists m.next []) q (lists q ++ [(node, m.next)])) := by
  have hq : q ≠ m.next := by
    have := hs.lt_next (R.heap hG)
    rw [R.next]
    omega
  have hfree : m.files m.next = none := by
    have := hs.fresh m.next R.next.symm.le
    rw [R.file] at this
    simpa using this
  have hother : ∀ x X, x ≠ q → m.files x = some X → ∀ a ∈ addresses (lists x), a ≠ node ∧ a ∉ addresses (lists q) := by
    intro x X hx hX a ha
    refine ⟨?_, R.elsewhere hG hX hx ha⟩
    rintro rfl
    exact (R.chain x X hX).live ha hnode
  refine ⟨R.maxBytes, R.currentBytes, by simp [addFile, R.next], R.stale, ?_, ?_, ?_, ?_⟩
  · intro x
    by_cases hx : x = q
    · subst hx
      simp [addFile, LinkedFile.view, R.next]
    · by_cases hxn : x = m.next
      · subst hxn
        simp [addFile, LinkedFile.view, hx, ← R.next]
      · simp [addFile, hx, hxn, ← R.next, R.file x]
  · intro x X hX
    by_cases hx : x = q
    · subst hx
      obtain rfl : { G with files := head } = X := by simpa using hX
      simpa using hc
    · by_cases hxn : x = m.next
      · subst hxn
        obtain rfl : { F with parent := some q } = X := by simpa [hx] using hX
        simpa [hx, Chain] using hF
      · have hX' : m.files x = some X := by simpa [hx, hxn] using hX
        simp only [Function.update_of_ne hx, Function.update_of_ne hxn]
        apply (R.chain x X hX').frame
        intro a ha
        exact hframe a (hother x X hx hX' a ha).1 (hother x X hx hX' a ha).2
  · -- the new node is in no other list, and the new file has none
    have hmem : ∀ x a, Function.update (Function.update m.files m.next (some { F with parent := some q })) q
        (some { G with files := head }) x ≠ none →
        a ∈ addresses (Function.update (Function.update lists m.next []) q (lists q ++ [(node, m.next)]) x) →
        (a = node ∧ x = q) ∨ (m.files x ≠ none ∧ a ∈ addresses (lists x)) := by
      intro x a hx ha
      by_cases hxq : x = q
      · subst hxq
        rw [Function.update_self, addresses_append, List.mem_append] at ha
        rcases ha with ha | ha
        · exact Or.inr ⟨by simp [hG], ha⟩
        · exact Or.inl ⟨by simpa [addresses] using ha, rfl⟩
      · by_cases hxn : x = m.next
        · subst hxn
          simp [hxq] at ha
        · exact Or.inr ⟨by simpa [hxq, hxn] using hx, by simpa [hxq, hxn] using ha⟩
    intro x y a hx hy hax hay
    rcases hmem x a hx hax with ⟨rfl, rfl⟩ | ⟨hx', hax'⟩
    · rcases hmem y a hy hay with ⟨-, rfl⟩ | ⟨hy', hay'⟩
      · rfl
      · obtain ⟨Y, hY⟩ := Option.ne_none_iff_exists'.mp hy'
        exact absurd hnode ((R.chain y Y hY).live hay')
    · obtain ⟨X, hX⟩ := Option.ne_none_iff_exists'.mp hx'
      rcases hmem y a hy hay with ⟨rfl, rfl⟩ | ⟨hy', hay'⟩
      · exact absurd hnode ((R.chain x X hX).live hax')
      · exact R.apart x y a hx' hy' hax' hay'
  · intro ht a ha
    by_cases han : a = node
    · exact ⟨q, by simp, by simp [han]⟩
    · by_cases haq : a ∈ addresses (lists q)
      · exact ⟨q, by simp, by simp [haq]⟩
      · obtain ⟨x, hx, hax⟩ := R.owned ht a (by rwa [← hframe a han haq])
        have hxq : x ≠ q := by
          rintro rfl
          exact haq hax
        have hxn : x ≠ m.next := by
          rintro rfl
          exact hx hfree
        exact ⟨x, by simpa [hxq, hxn] using hx, by simpa [hxq, hxn] using hax⟩

/-- A file taken out of the directory `q`, with its node. -/
theorem Represents.shrink (R : Represents tidy m d lists) {q p a : ℕ} {G : LinkedFile} (hG : m.files q = some G)
    (hqp : q ≠ p) {pre suf : List (ℕ × ℕ)} (hl : lists q = pre ++ (a, p) :: suf)
    (hpre : p ∉ values pre) {head : Option ℕ} {h : Heap ℕ} (hc : Chain h head (pre ++ suf) none) (ha : h a = none)
    (hframe : ∀ b, b ∉ addresses (pre ++ [(a, p)]) → h b = m.nodes b) (htidy : tidy → lists p = []) :
    Represents tidy { m with
        files := Function.update (Function.update m.files p none) q (some { G with files := head })
        nodes := h }
      (removeFile d q (G.view (values (lists q))) p) (Function.update lists q (pre ++ suf)) := by
  have hsub : ∀ b ∈ addresses (pre ++ suf), b ∈ addresses (lists q) := by
    intro b hb
    rw [addresses_append, List.mem_append] at hb
    rw [hl, addresses_append, addresses_cons, List.mem_append, List.mem_cons]
    exact hb.imp_right Or.inr
  have hsub' : ∀ b ∈ addresses (pre ++ [(a, p)]), b ∈ addresses (lists q) := by
    intro b hb
    rw [addresses_append, List.mem_append] at hb
    rw [hl, addresses_append, addresses_cons, List.mem_append, List.mem_cons]
    exact hb.imp_right fun hb => Or.inl (by simpa [addresses] using hb)
  have herase : (values (lists q)).erase p = values (pre ++ suf) := by
    rw [hl, values_append, values_cons, List.erase_append_right _ hpre, List.erase_cons_head, values_append]
  have hlive : ∀ x, x ≠ p → (Function.update (Function.update m.files p none) q (some { G with files := head }) x ≠ none ↔
      m.files x ≠ none) := by
    intro x hx
    by_cases hxq : x = q
    · subst hxq
      simp [hG]
    · simp [hxq, hx]
  have hdead : Function.update (Function.update m.files p none) q (some { G with files := head }) p = none := by
    simp [Ne.symm hqp]
  refine ⟨R.maxBytes, R.currentBytes, R.next, R.stale, ?_, ?_, ?_, ?_⟩
  · intro x
    by_cases hxp : x = p
    · subst hxp
      simp [removeFile, Ne.symm hqp]
    · by_cases hxq : x = q
      · subst hxq
        simp [removeFile, hqp, LinkedFile.view, herase]
      · simp [removeFile, hxp, hxq, R.file x]
  · intro x X hX
    by_cases hxp : x = p
    · subst hxp
      exact absurd (hdead.symm.trans hX) (by simp)
    · by_cases hxq : x = q
      · subst hxq
        obtain rfl : { G with files := head } = X := by simpa using hX
        simpa using hc
      · have hX' : m.files x = some X := by simpa [hxp, hxq] using hX
        simp only [Function.update_of_ne hxq]
        apply (R.chain x X hX').frame
        intro b hb
        apply hframe
        intro hm
        exact R.elsewhere hG hX' hxq hb (hsub' b hm)
  · have hmem : ∀ x b, b ∈ addresses (Function.update lists q (pre ++ suf) x) → b ∈ addresses (lists x) := by
      intro x b hb
      by_cases hxq : x = q
      · subst hxq
        exact hsub b (by simpa using hb)
      · simpa [hxq] using hb
    intro x y b hx hy hbx hby
    have hxp : x ≠ p := by
      rintro rfl
      exact hx hdead
    have hyp : y ≠ p := by
      rintro rfl
      exact hy hdead
    exact R.apart x y b ((hlive x hxp).mp hx) ((hlive y hyp).mp hy) (hmem x b hbx) (hmem y b hby)
  · intro ht b hb
    have hba : b ≠ a := by
      rintro rfl
      exact hb ha
    by_cases hbq : b ∈ addresses (lists q)
    · refine ⟨q, by simp, ?_⟩
      rw [hl, addresses_append, addresses_cons, List.mem_append, List.mem_cons] at hbq
      simpa using hbq.imp_right fun h => h.resolve_left hba
    · obtain ⟨x, hx, hbx⟩ := R.owned ht b (by rwa [← hframe b fun hm => hbq (hsub' b hm)])
      have hxq : x ≠ q := by
        rintro rfl
        exact hbq hbx
      have hxp : x ≠ p := by
        rintro rfl
        rw [htidy ht] at hbx
        exact absurd hbx (by simp)
      exact ⟨x, (hlive x hxp).mpr hx, by simpa [hxq] using hbx⟩

theorem Represents.length_le (R : Represents tidy m d lists) (hs : Shape d) {q : ℕ} {G : LinkedFile}
    (hG : m.files q = some G) : (lists q).length ≤ d.next := by
  have hg := R.heap hG
  have hsub : values (lists q) ⊆ List.range d.next := by
    intro p hp
    obtain ⟨f, hf, -⟩ := hs.down q _ p hg hp
    exact List.mem_range.mpr (hs.lt_next hf)
  calc (lists q).length = (values (lists q)).length := (List.length_map _).symm
    _ ≤ (List.range d.next).length := ((hs.nodup q _ hg).subperm hsub).length_le
    _ = d.next := List.length_range

/-- **A file is added** the same way at both levels. -/
theorem Represents.addFile (R : Represents tidy m d lists) (hs : Shape d) {q node fuel : ℕ} {G F : LinkedFile}
    (hG : m.files q = some G) (hnode : m.nodes node = none) (hF : F.files = none) :
    Follows ((lists q).length ≤ fuel) (Shows tidy) (m.addFile fuel node q G F)
      (some (addFile d q (G.view (values (lists q))) (F.view []))) := by
  have hc := R.chain q G hG
  have hsame : ∀ f : ℕ → Option LinkedFile, q ≠ m.next → f q = some G →
      Function.update (Function.update f m.next (some { F with parent := some q })) q (some G) =
        Function.update f m.next (some { F with parent := some q }) := by
    intro f hq hf
    rw [Function.update_eq_self_iff, Function.update_of_ne hq, hf]
  have hq : q ≠ m.next := by
    have := hs.lt_next (R.heap hG)
    rw [R.next]
    omega
  unfold Memory.addFile
  cases hhead : G.files with
  | none =>
    rw [hhead] at hc
    obtain hl : lists q = [] := hc.unique rfl
    exact .both ⟨_, R.extend hs hG hnode hF (h := Function.update m.nodes node (some ⟨m.next, none⟩))
      (by rw [hl]; exact ⟨rfl, none, by simp, rfl⟩) fun b hb _ => Function.update_of_ne hb _ _⟩
  | some a =>
    rw [hhead] at hc
    have hl : lists q ≠ [] := by
      intro hl
      rw [hl] at hc
      exact absurd hc (by simp [Chain])
    obtain ⟨h', hpush, hc', hframe⟩ := push_eq hc hl hnode fuel m.next
    simp only [hpush]
    split_ifs with hf
    · have hR := R.extend hs hG hnode hF hc' hframe
      rw [← hhead, hsame m.files hq hG] at hR
      exact .both ⟨_, hR⟩
    · exact .gaveUp hf

/-- The files that `rd_create` and `rd_mkdir` add. -/
theorem Represents.added (R : Represents tidy m d lists) (hs : Shape d) {q node fuel : ℕ} {G : LinkedFile}
    (hG : m.files q = some G) (hnode : m.nodes node = none) (name : Text) (type : FileType) :
    Follows (d.next < fuel) (Shows tidy) (m.addFile fuel node q G (LinkedFile.create name G.name type))
      (some (Ramdisk.addFile d q (G.view (values (lists q))) (createRdFile name G.name type))) :=
  (R.addFile hs hG hnode rfl).mono fun h => (R.length_le hs hG).trans h.le

/-- **A file is taken out** the same way at both levels. -/
theorem Represents.removeItem (R : Represents tidy m d lists) (hs : Shape d) {q p fuel : ℕ} {F : LinkedFile}
    (hF : m.files p = some F) (htidy : tidy → lists p = []) :
    Follows (d.next < fuel) (Shows tidy) (m.removeItem fuel q p) (deleteItem d q p) := by
  have hp := R.heap hF
  cases hG : m.files q with
  | none =>
    have hg : d.heap q = none := by rw [R.file, hG, Option.map_none]
    simp only [Memory.removeItem, deleteItem, hG, hg, Option.bind_eq_bind, Option.bind_none]
    exact .neither
  | some G =>
  have hg := R.heap hG
  have hc := R.chain q G hG
  simp only [Memory.removeItem, hG, Option.bind_eq_bind, Option.bind_some]
  have hfuel := R.length_le hs hG
  by_cases hm : p ∈ values (lists q)
  · -- the first node of the file, and the nodes in front of it and behind it
    obtain ⟨⟨a, x⟩, hax, rfl : x = p⟩ := List.mem_map.mp hm
    have hqp : q ≠ x := by
      obtain ⟨-, -, -, hlt⟩ := hs.down q _ x hg hm
      omega
    obtain ⟨pre, suf, hl, hpre⟩ : ∃ pre suf, lists q = pre ++ (a, x) :: suf ∧ x ∉ values pre := by
      obtain ⟨pre, suf, hl⟩ := List.append_of_mem hax
      refine ⟨pre, suf, hl, ?_⟩
      have hnd := hs.nodup q _ hg
      rw [LinkedFile.view, hl, values_append, values_cons, List.nodup_append] at hnd
      exact fun hx => hnd.2.2 x hx x (by simp) rfl
    rw [hl] at hc
    obtain ⟨p', h', hrun, hc', ha, hframe⟩ := deleteItem_found hF hc hpre
    have hlen : d.next < fuel → pre.length < fuel := by
      rw [hl, List.length_append] at hfuel
      omega
    rw [hrun, deleteItem_of_mem hs hg hm hp]
    by_cases hk : F.data = none ∧ m.stale x = true
    · -- both levels free a pointer that was never set
      have hk' : ¬ Disposable d x (F.view (values (lists x))) := by
        intro h
        rw [R.stale, h hk.1] at hk
        exact absurd hk.2 (by simp)
      rw [if_neg hk', if_neg fun h => h.2 hk]
      exact .neither
    · have hk' : Disposable d x (F.view (values (lists x))) := by
        intro h
        rw [← R.stale, Bool.eq_false_iff]
        exact fun hst => hk ⟨h, hst⟩
      rw [if_pos hk']
      split_ifs with hf
      · simp only [Option.bind_some, Function.update_of_ne hqp, hG]
        exact .both ⟨_, R.shrink hG hqp hl hpre hc' ha hframe htidy⟩
      · exact .gaveUp fun h => hf ⟨hlen h, hk⟩
  · have habsent : deleteItem d q p = some d := by
      simp only [deleteItem, hg, LinkedFile.view_files, if_neg hm, Option.bind_eq_bind, Option.bind_some]
    rw [habsent, deleteItem_absent hc hm]
    split_ifs with hf
    · simp only [Option.bind_some, hG]
      have hsame : m.setFile q { G with files := G.files } = m := by
        simp [Memory.setFile, ← hG]
      rw [hsame]
      exact .both ⟨lists, R⟩
    · exact .gaveUp fun h => hf (lt_of_le_of_lt hfuel h)

/-! ### Looking up -/

/-- **`get_file`** walks the nodes as it walks the list. -/
theorem Represents.getFile_nodes (R : Represents tidy m d lists) (name : Text) : ∀ {l : List (ℕ × ℕ)} {p : Option ℕ}
    {fuel : ℕ}, Chain m.nodes p l none → Follows (l.length < fuel) Eq (m.getFile name fuel p) (getFile d name (values l))
  | _, _, 0, _ => .gaveUp (by omega)
  | [], p, fuel + 1, hc => by
    obtain rfl : p = none := hc
    exact .both rfl
  | (a, x) :: l, p, fuel + 1, hc => by
    obtain ⟨rfl, n, hn, hc⟩ := hc
    simp only [Memory.getFile, hn, Option.bind_eq_bind, Option.bind_some, values_cons, getFile]
    apply (R.files x).bind
    rintro F f ⟨-, -, rfl⟩ - -
    apply Follows.ite
    · exact fun _ => .both rfl
    · intro _
      exact (R.getFile_nodes name hc).mono (by simp)

variable {fuel : ℕ}

theorem Represents.getFile (R : Represents tidy m d lists) (hs : Shape d) (name : Text) {q : ℕ} {G : LinkedFile}
    (hG : m.files q = some G) :
    Follows (d.next < fuel) Eq (m.getFile name fuel G.files) (getFile d name (values (lists q))) :=
  (R.getFile_nodes name (R.chain q G hG)).mono fun h => lt_of_le_of_lt (R.length_le hs hG) h

theorem Represents.descend (R : Represents tidy m d lists) (hs : Shape d) : ∀ (names : List Text) (q : ℕ),
    Follows (d.next < fuel) Eq (m.descend fuel q names) (descend d q names)
  | [], q => .both rfl
  | name :: names, q => by
    unfold Memory.descend Ramdisk.descend
    apply (R.files q).bind
    rintro G g ⟨hG, -, rfl⟩ - -
    apply (R.getFile hs name hG).bind
    rintro o - rfl - -
    cases o with
    | none => exact .both rfl
    | some p =>
      apply (R.files p).bind
      rintro F f ⟨-, -, rfl⟩ - -
      apply Follows.ite
      · exact fun _ => .both rfl
      · exact fun _ => R.descend hs names p

theorem Represents.getRdFile (R : Represents tidy m d lists) (hs : Shape d) (path : Text) :
    Follows (d.next < fuel) Eq (m.getRdFile fuel path) (getRdFile d path) := by
  unfold Memory.getRdFile Ramdisk.getRdFile
  apply Follows.bind_eq
  rintro ⟨fileNames, count⟩ -
  apply (R.descend hs _ _).bind
  rintro o - rfl - -
  apply Follows.bind_eq
  intro q _
  apply (R.files q).bind
  rintro G g ⟨hG, -, rfl⟩ - -
  apply Follows.bind_eq
  intro name _
  exact R.getFile hs name hG

/-- **`fill_stats`** counts the files of a directory right. -/
theorem Represents.fillStats (R : Represents tidy m d lists) (hs : Shape d) {p : ℕ} {F : LinkedFile}
    (hF : m.files p = some F) :
    Follows (d.next < fuel) Eq (m.fillStats fuel F) (some (fillStats (F.view (values (lists p))))) := by
  unfold Memory.fillStats Ramdisk.fillStats
  simp only [LinkedFile.view_type, LinkedFile.view_files]
  cases F.type with
  | regular => exact .both rfl
  | directory =>
    rw [getCount_eq (R.chain p F hF)]
    split_ifs with hf
    · refine .both ?_
      simp [values]
    · exact .gaveUp fun h => hf ((R.length_le hs hF).trans h.le)

theorem Represents.fillEntries (R : Represents tidy m d lists) (hs : Shape d) {bound : ℕ} :
    ∀ {l : List (ℕ × ℕ)} {p : Option ℕ} {fuel : ℕ}, Chain m.nodes p l none →
    Follows (d.next < bound ∧ l.length < fuel) Eq (m.fillEntries bound fuel p) (fillEntries d (values l))
  | _, _, 0, _ => .gaveUp (by omega)
  | [], p, fuel + 1, hc => by
    obtain rfl : p = none := hc
    exact .both rfl
  | (a, x) :: l, p, fuel + 1, hc => by
    obtain ⟨rfl, n, hn, hc⟩ := hc
    simp only [Memory.fillEntries, hn, Option.bind_eq_bind, Option.bind_some, values_cons, Ramdisk.fillEntries]
    apply (R.files x).bind
    rintro F f ⟨hF, -, rfl⟩ - -
    apply Follows.bind_some ((R.fillStats hs hF).mono And.left)
    rintro st rfl
    apply Follows.bind
    · exact (R.fillEntries hs hc).mono fun h => ⟨h.1, by simpa using h.2⟩
    · rintro entries - rfl - -
      exact .both rfl

/-! ### The callbacks -/

/-- The same reply, and the disk is in the memory. -/
def Agrees (tidy : Prop) (x : Memory × Reply) (y : Disk × Reply) : Prop := x.2 = y.2 ∧ Shows tidy x.1 y.1

theorem Represents.same (R : Represents tidy m d lists) {ok : Prop} (r : Reply) :
    Follows ok (Agrees tidy) (some (m, r)) (some (d, r)) := .both ⟨rfl, lists, R⟩

/-- The end of `rd_readdir`, when the file is found. -/
theorem Represents.listing (R : Represents tidy m d lists) (hs : Shape d) (p : ℕ) :
    Follows (d.next < fuel) (Agrees tidy)
      (m.files p >>= fun f => if f.type = .regular then some (m, .ofCode (-enoent))
        else m.fillEntries fuel fuel f.files >>= fun entries => some (m, { Reply.ofCode 0 with entries := entries }))
      (d.heap p >>= fun f => if f.type = .regular then some (d, .ofCode (-enoent))
        else Ramdisk.fillEntries d f.files >>= fun entries => some (d, { Reply.ofCode 0 with entries := entries })) := by
  apply (R.files p).bind
  rintro F f ⟨hF, -, rfl⟩ - -
  apply Follows.ite fun _ => R.same _
  intro _
  apply Follows.bind
  · apply (R.fillEntries hs (R.chain p F hF)).mono
    exact fun h => ⟨h, lt_of_le_of_lt (R.length_le hs hF) h⟩
  · rintro entries - rfl - -
    exact R.same _

/-- The loop of `rd_write` does not look at the list. -/
theorem storeBytes_follows (F : LinkedFile) (l : List ℕ) (data : Option (List UInt8)) (size k : ℕ)
    (buffer : List UInt8) {ok : Prop} :
    Follows ok (fun f f' => f' = (F.store f).view l) (storeBytes { F.view [] with data := data, size := size } k buffer)
      (storeBytes { F.view l with data := data, size := size } k buffer) := by
  unfold storeBytes
  apply Follows.ite
  · exact fun _ => .both rfl
  · intro _
    apply Follows.bind_eq
    intro old _
    apply Follows.bind_eq
    exact fun new _ => .both rfl

section Callbacks

variable (R : Represents tidy m d lists) (hs : Shape d) (path : Text)
include R hs

theorem opendir_follows : Follows (d.next < fuel) (Agrees tidy) (m.rdOpendir fuel path) (rdOpendir d path) := by
  unfold Memory.rdOpendir rdOpendir
  apply Follows.ite fun _ => R.same _
  intro _
  apply (R.getRdFile hs path).bind
  rintro o - rfl - -
  cases o with
  | none => exact R.same _
  | some p =>
    apply (R.files p).bind
    rintro F f ⟨-, -, rfl⟩ - -
    exact Follows.ite (fun _ => R.same _) fun _ => R.same _

theorem open_follows (flags : ℕ) :
    Follows (d.next < fuel) (Agrees tidy) (m.rdOpen fuel path flags) (rdOpen d path flags) := by
  unfold Memory.rdOpen rdOpen
  apply Follows.ite fun _ => R.same _
  intro _
  apply (R.getRdFile hs path).bind
  rintro o - rfl - -
  cases o with
  | none => exact R.same _
  | some p =>
    apply (R.files p).bind
    rintro F f ⟨hF, -, rfl⟩ - -
    apply Follows.ite fun _ => R.same _
    exact fun _ => .both ⟨rfl, lists, R.setFile hF rfl⟩

theorem flush_follows : Follows (d.next < fuel) (Agrees tidy) (m.rdFlush fuel path) (rdFlush d path) := by
  unfold Memory.rdFlush rdFlush
  apply Follows.ite fun _ => R.same _
  intro _
  apply (R.getRdFile hs path).bind
  rintro o - rfl - -
  cases o with
  | none => exact R.same _
  | some p => exact R.same _

theorem read_follows (size : ℕ) (offset : ℤ) :
    Follows (d.next < fuel) (Agrees tidy) (m.rdRead fuel path size offset) (rdRead d path size offset) := by
  unfold Memory.rdRead rdRead
  apply Follows.ite fun _ => R.same _
  intro _
  apply (R.getRdFile hs path).bind
  rintro o - rfl - -
  cases o with
  | none => exact R.same _
  | some p =>
    apply (R.files p).bind
    rintro F f ⟨-, -, rfl⟩ - -
    apply Follows.ite fun _ => R.same _
    intro _
    apply Follows.ite
    · intro _
      apply Follows.bind_eq
      intro bytes _
      apply Follows.bind_eq
      exact fun _ _ => R.same _
    · exact fun _ => R.same _

theorem getattr_follows : Follows (d.next < fuel) (Agrees tidy) (m.rdGetattr fuel path) (rdGetattr d path) := by
  unfold Memory.rdGetattr rdGetattr
  apply Follows.bind_eq
  rintro ⟨fileNames, count⟩ -
  apply Follows.ite
  · intro _
    apply (R.files root).bind
    rintro F f ⟨hF, -, rfl⟩ - -
    apply Follows.bind_some (R.fillStats hs hF)
    rintro st rfl
    exact R.same _
  · intro _
    apply (R.descend hs _ _).bind
    rintro o - rfl - -
    cases o with
    | none => exact R.same _
    | some q =>
      apply (R.files q).bind
      rintro G g ⟨hG, -, rfl⟩ - -
      apply Follows.bind_eq
      intro name _
      apply (R.getFile hs name hG).bind
      rintro o - rfl - -
      cases o with
      | none => exact R.same _
      | some p =>
        apply (R.files p).bind
        rintro F f ⟨hF, -, rfl⟩ - -
        apply Follows.bind_some (R.fillStats hs hF)
        rintro st rfl
        exact R.same _

theorem readdir_follows : Follows (d.next < fuel) (Agrees tidy) (m.rdReaddir fuel path) (rdReaddir d path) := by
  unfold Memory.rdReaddir rdReaddir
  apply Follows.bind_eq
  rintro ⟨fileNames, count⟩ -
  apply (R.descend hs _ _).bind
  rintro o - rfl - -
  cases o with
  | none => exact R.same _
  | some q =>
    apply (R.files q).bind
    rintro G g ⟨hG, -, rfl⟩ - -
    apply Follows.bind_eq
    intro name _
    by_cases hroot : path = rootName
    · simp only [if_pos hroot]
      exact R.listing hs root
    · simp only [if_neg hroot]
      apply (R.getFile hs name hG).bind
      rintro o - rfl - -
      cases o with
      | none => exact R.same _
      | some p => exact R.listing hs p

theorem create_follows {node : ℕ} (hnode : m.nodes node = none) :
    Follows (d.next < fuel) (Agrees tidy) (m.rdCreate fuel path node) (rdCreate d path) := by
  unfold Memory.rdCreate rdCreate
  apply Follows.ite fun _ => R.same _
  intro _
  apply Follows.bind_eq
  rintro ⟨fileNames, count⟩ -
  apply (R.descend hs _ _).bind
  rintro o - rfl - -
  cases o with
  | none => exact R.same _
  | some q =>
    apply (R.files q).bind
    rintro G g ⟨hG, -, rfl⟩ - -
    apply Follows.bind_eq
    intro name _
    apply Follows.bind_some (R.added hs hG hnode name .regular)
    exact fun m' h => .both ⟨rfl, h⟩

theorem mkdir_follows {node : ℕ} (hnode : m.nodes node = none) :
    Follows (d.next < fuel) (Agrees tidy) (m.rdMkdir fuel path node) (rdMkdir d path) := by
  unfold Memory.rdMkdir rdMkdir Memory.memoryAvailable memoryAvailable
  rw [R.maxBytes, R.currentBytes]
  apply Follows.ite fun _ => R.same _
  intro _
  apply Follows.ite fun _ => R.same _
  intro _
  apply Follows.bind_eq
  rintro ⟨fileNames, count⟩ -
  apply (R.descend hs _ _).bind
  rintro o - rfl - -
  cases o with
  | none => exact R.same _
  | some q =>
    apply (R.files q).bind
    rintro G g ⟨hG, -, rfl⟩ - -
    apply Follows.bind_eq
    intro name _
    apply (R.getFile hs name hG).bind
    rintro o - rfl - -
    cases o with
    | some p => exact R.same _
    | none =>
      apply Follows.bind_some (R.added hs hG hnode name .directory)
      rintro m' ⟨lists', R'⟩
      rw [R'.currentBytes]
      exact .both ⟨rfl, lists', R'.bytes _⟩

theorem unlink_follows (htidy : tidy → IsRegular d path) :
    Follows (d.next < fuel) (Agrees tidy) (m.rdUnlink fuel path) (rdUnlink d path) := by
  unfold Memory.rdUnlink rdUnlink
  apply Follows.ite fun _ => R.same _
  intro _
  apply Follows.bind_eq
  rintro ⟨fileNames, count⟩ hdirs
  apply (R.descend hs _ _).bind
  rintro o o' ho - hpar
  subst ho
  cases o with
  | none => exact R.same _
  | some q =>
    apply (R.files q).bind
    rintro G g ⟨hG, hg, rfl⟩ - -
    apply Follows.bind_eq
    intro name hname
    apply (R.getFile hs name hG).bind
    rintro o o' ho - hfile
    subst ho
    cases o with
    | none => exact R.same _
    | some p =>
      apply (R.files p).bind
      rintro F f ⟨hF, hf, rfl⟩ - -
      -- a regular file has no list that would be lost
      have hlist : tidy → lists p = [] := by
        intro ht
        obtain ⟨p', f', hp', hf', hreg⟩ := htidy ht
        have hsame : getRdFile d path = some (some p) := by
          simp only [getRdFile, hdirs, getParentDirectory, hpar, hg, hname, hfile, Option.bind_eq_bind, Option.bind_some,
            LinkedFile.view_files]
        obtain rfl : p = p' := by simpa [hsame] using hp'
        have hempty := hs.leaf p f' hf' hreg
        obtain rfl : F.view (values (lists p)) = f' := by simpa [hf] using hf'
        exact List.map_eq_nil_iff.mp hempty
      rw [R.currentBytes]
      apply ((R.bytes (d.currentBytes - F.size)).removeItem (hs.congr rfl rfl) hF hlist).bind
      exact fun m' d' h _ _ => .both ⟨rfl, h⟩

theorem rmdir_follows : Follows (d.next < fuel) (Agrees tidy) (m.rdRmdir fuel path) (rdRmdir d path) := by
  unfold Memory.rdRmdir rdRmdir
  apply Follows.ite fun _ => R.same _
  intro _
  apply (R.getRdFile hs path).bind
  rintro o - rfl - -
  cases o with
  | none => exact R.same _
  | some p =>
    apply (R.files p).bind
    rintro F f ⟨hF, -, rfl⟩ - -
    apply Follows.ite fun _ => R.same _
    intro _
    have hnil : F.files ≠ none ↔ values (lists p) ≠ [] := by
      rw [ne_eq, null_iff (R.chain p F hF), ne_eq, values, List.map_eq_nil_iff]
    simp only [LinkedFile.view_files, hnil]
    apply Follows.ite fun _ => R.same _
    intro hempty
    apply Follows.bind_eq
    intro q _
    have hlist : lists p = [] := List.map_eq_nil_iff.mp (not_not.mp hempty)
    apply (R.removeItem hs hF fun _ => hlist).bind
    rintro m' d' ⟨lists', R'⟩ - -
    rw [R'.currentBytes]
    exact .both ⟨rfl, lists', R'.bytes _⟩

theorem write_follows (buffer : List UInt8) (offset : ℤ) :
    Follows (d.next < fuel) (Agrees tidy) (m.rdWrite fuel path buffer offset) (rdWrite d path buffer offset) := by
  unfold Memory.rdWrite rdWrite Memory.memoryAvailable memoryAvailable
  rw [R.maxBytes, R.currentBytes]
  apply Follows.ite fun _ => R.same _
  intro _
  apply (R.getRdFile hs path).bind
  rintro o - rfl - -
  cases o with
  | none => exact R.same _
  | some p =>
    apply (R.files p).bind
    rintro F f ⟨hF, -, rfl⟩ - -
    apply Follows.ite fun _ => R.same _
    intro _
    apply Follows.ite
    · intro _
      apply Follows.ite fun _ => R.same _
      intro _
      have hdata : ∀ n, grownData (F.view []) n = grownData (F.view (values (lists p))) n := fun n => rfl
      simp only [hdata]
      apply Follows.bind_eq
      intro temp _
      apply (storeBytes_follows F (values (lists p)) (some temp) _ _ buffer).bind
      rintro f - rfl - -
      have hfiles : (F.store f).files = F.files := rfl
      exact .both ⟨rfl, lists, (R.setFile hF hfiles).bytes _⟩
    · intro _
      apply (storeBytes_follows F (values (lists p)) F.data F.size _ buffer).bind
      rintro f - rfl - -
      exact .both ⟨rfl, lists, R.setFile hF rfl⟩

/-- **A callback does the same at both levels**, whatever the call. -/
theorem exec_follows {node : ℕ} (hnode : m.nodes node = none) (op : Op)
    (htidy : ∀ path, op = .unlink path → tidy → IsRegular d path) :
    Follows (d.next < fuel) (Agrees tidy) (m.exec fuel node op) (exec d op) := by
  cases op with
  | create path => exact create_follows R hs path hnode
  | mkdir path => exact mkdir_follows R hs path hnode
  | write path buffer offset => exact write_follows R hs path buffer offset
  | unlink path => exact unlink_follows R hs path (htidy path rfl)
  | rmdir path => exact rmdir_follows R hs path
  | getattr path => exact getattr_follows R hs path
  | opendir path => exact opendir_follows R hs path
  | readdir path => exact readdir_follows R hs path
  | «open» path flags => exact open_follows R hs path flags
  | flush path => exact flush_follows R hs path
  | read path size offset => exact read_follows R hs path size offset
  | statfs path =>
    simp only [Memory.exec, exec, Memory.rdStatfs, rdStatfs, R.maxBytes, R.currentBytes]
    exact R.same _

end Callbacks

end Represented

/-! ### Runs -/

/-- A path is that of a regular file. -/
def Memory.IsRegular (m : Memory) (path : Text) : Prop :=
  ∃ fuel p F, m.getRdFile fuel path = some (some p) ∧ m.files p = some F ∧ F.type = .regular

/-- The disk in memory under any calls with absolute paths that return; if `tidy`, only
regular files are unlinked. -/
def linked (tidy : Prop) (maxBytes : ℤ) : Lts Memory (Op × Reply) where
  init m := ∃ stale, m = .start maxBytes stale
  step m e m' := Absolute e.1.path ∧ (tidy → ∀ path, e.1 = .unlink path → m.IsRegular path) ∧
    ∃ fuel node, m.nodes node = none ∧ m.exec fuel node e.1 = some (m', e.2)

section Runs

variable {tidy : Prop} {maxBytes : ℤ} {m : Memory} {d : Disk}

theorem Represents.isRegular {lists : ℕ → List (ℕ × ℕ)} (R : Represents tidy m d lists) (hs : Shape d) {path : Text}
    (h : m.IsRegular path) : IsRegular d path := by
  obtain ⟨fuel, p, F, hp, hF, hreg⟩ := h
  have hfind : Follows (d.next < fuel) Eq (m.getRdFile fuel path) (Ramdisk.getRdFile d path) := R.getRdFile hs path
  rw [hp] at hfind
  obtain ⟨o, ho, rfl⟩ := hfind.returned
  exact ⟨p, _, ho, R.heap hF, hreg⟩

/-- **What is done in memory is done to the lists.** -/
theorem linked_simulates (tidy : Prop) (maxBytes : ℤ) :
    (linked tidy maxBytes).Simulates (calls maxBytes) fun m d => Shows tidy m d ∧ Sound d := by
  rintro m d ⟨op, r⟩ m' ⟨⟨lists, R⟩, hs⟩ ⟨habs, htidy, fuel, node, hnode, hex⟩
  have hfollows : Follows (d.next < fuel) (Agrees tidy) (m.exec fuel node op) (exec d op) :=
    exec_follows R hs.shape hnode op fun path hop ht => R.isRegular hs.shape (htidy ht path hop)
  rw [hex] at hfollows
  obtain ⟨⟨d', r'⟩, hd, rfl, hshows⟩ := hfollows.returned
  have hst : (calls maxBytes).step d (op, r) d' := ⟨habs, hd⟩
  exact ⟨d', hst, hshows, sound_step hs hst⟩

theorem Represents.weaken {lists : ℕ → List (ℕ × ℕ)} (R : Represents True m d lists) : Represents tidy m d lists :=
  ⟨R.maxBytes, R.currentBytes, R.next, R.stale, R.file, R.chain, R.apart, fun _ => R.owned trivial⟩

/-- **The RAM disk in memory is the RAM disk of lists.** Every run in memory is a run of the
lists, with the same calls and replies. Where it leads, each directory has its files on a
chain of nodes of its own; if only regular files were unlinked, no other node is allocated.
With fuel for as many nodes as there were files the next call fails or returns the same at
both levels, at whatever address its node is allocated. -/
theorem disk_in_memory {stale : ℕ → Bool} {tr : List (Trans Memory (Op × Reply))}
    (hr : (linked tidy maxBytes).Run (.start maxBytes stale) tr m) :
    ∃ tr' d lists, (calls maxBytes).Run (.start maxBytes stale) tr' d ∧ labels tr' = labels tr ∧
      Represents tidy m d lists ∧
      (tidy → ∀ a, m.nodes a ≠ none ↔ ∃ p, m.files p ≠ none ∧ a ∈ addresses (lists p)) ∧
      ∀ op node fuel, (tidy → ∀ path, op = .unlink path → IsRegular d path) → m.nodes node = none → m.next < fuel →
        Option.Rel (Agrees tidy) (m.exec fuel node op) (exec d op) := by
  obtain ⟨tr', d, hrun, hlab, ⟨lists, R⟩, hs⟩ := (linked_simulates tidy maxBytes).run
    ⟨⟨_, (represents_start maxBytes stale).weaken⟩, sound_start maxBytes stale⟩ hr
  refine ⟨tr', d, lists, hrun, hlab, R, ?_, ?_⟩
  · intro ht a
    constructor
    · exact R.owned ht a
    · rintro ⟨p, hp, ha⟩
      obtain ⟨F, hF⟩ := Option.ne_none_iff_exists'.mp hp
      exact (R.chain p F hF).live ha
  · intro op node fuel htidy hnode hfuel
    apply (exec_follows R hs.shape hnode op fun path hop ht => htidy ht path hop).rel
    rwa [← R.next]

/-- The directory `/a` is made, with its node at the address 7. -/
theorem disk_in_memory_mkdir : ∃ m tr, (linked True (2 ^ 20)).Run (.start (2 ^ 20) zeroed) tr m ∧
    ∃ tr' d lists, (calls (2 ^ 20)).Run (.start (2 ^ 20) zeroed) tr' d ∧ labels tr' = labels tr ∧
      Represents True m d lists ∧
      (True → ∀ a, m.nodes a ≠ none ↔ ∃ p, m.files p ≠ none ∧ a ∈ addresses (lists p)) ∧
      ∀ op node fuel, (True → ∀ path, op = .unlink path → IsRegular d path) → m.nodes node = none → m.next < fuel →
        Option.Rel (Agrees True) (m.exec fuel node op) (exec d op) := by
  have hst : ∃ m', (linked True (2 ^ 20)).step (.start (2 ^ 20) zeroed) (.mkdir "/a".toList, .ofCode 0) m' :=
    ⟨_, ⟨"a".toList, rfl⟩, fun _ _ h => absurd h (by simp), 2, 7, rfl, rfl⟩
  obtain ⟨m', hst⟩ := hst
  exact ⟨m', _, .single hst, disk_in_memory (.single hst)⟩

end Runs

end Ramdisk
end Csc501

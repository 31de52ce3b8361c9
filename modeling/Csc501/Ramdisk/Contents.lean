/-
# The contents of a file

A regular file is to be an array of bytes: a write that is answered with its
size puts its bytes at the offset, one that is refused leaves the file as it
was, and nothing else changes the contents. `rd_write` keeps to this as long as
`strncpy`, which it uses to copy the old contents into a larger buffer, loses
nothing: in front of the offset of a request that makes the file grow, no byte
other than a zero may follow a zero (`writes_refine_iff`). Everything written
is then there, the chunks of a stream one after the other.

A binary file that is written in two requests is enough to break it
(`append_behind_zero`). `rd_read` copies with `memcpy`.

Key definitions: `replay`, `Refines`, `Grows`, `Kept`, `accepted`.
Key theorems: `write_outcome`, `refines_iff`, `writes_refine_iff`.
-/
import Csc501.Ramdisk.Space

namespace Csc501
namespace Ramdisk

open Lib

/-! ### An array of bytes -/

/-- The array after the writes `ws`, from the empty one on. -/
def replay (ws : List (ℕ × List UInt8)) : List UInt8 := ws.foldl (fun old w => splice old w.2 w.1) []

/-- Consecutive requests that write the chunks from index `n` on. -/
def chunked (n : ℕ) : List (List UInt8) → List (ℕ × List UInt8)
  | [] => []
  | c :: cs => (n, c) :: chunked (n + c.length) cs

theorem foldl_chunked : ∀ (cs : List (List UInt8)) (old : List UInt8),
    (chunked old.length cs).foldl (fun old w => splice old w.2 w.1) old = old ++ cs.flatten
  | [], old => by simp [chunked]
  | c :: cs, old => by
    have hstep : splice old c old.length = old ++ c := by simp [splice]
    rw [chunked, List.foldl_cons, hstep, ← List.length_append, foldl_chunked cs (old ++ c)]
    simp

/-- A stream is there as it was written, however it was cut. -/
theorem replay_chunked (cs : List (List UInt8)) : replay (chunked 0 cs) = cs.flatten := foldl_chunked cs []

theorem replay_snoc (ws : List (ℕ × List UInt8)) (w : ℕ × List UInt8) :
    replay (ws ++ [w]) = splice (replay ws) w.2 w.1 := by
  simp [replay]

/-! ### One request -/

/-- A request for `n` bytes at `k` makes the file grow, and there is room. -/
structure Grows (d : Disk) (f : RdFile) (k n : ℕ) : Prop where
  inside : k ≤ f.size
  grows : f.size < k + n
  room : memoryAvailable d (((k + n : ℕ) : ℤ) - f.size) = true

section Write

variable {d : Disk} {path : Text} {p : ℕ} {f : RdFile} {buffer : List UInt8}

theorem contents_of_length {f : RdFile} {bs : List UInt8} (hd : f.data = some bs) (hs : bs.length = f.size) :
    contents f = bs := by
  rw [contents, hd, Option.getD_some, ← hs, List.take_length]

/-- The two ways `rd_write` answers. -/
theorem write_outcome (hi : Inv d) (h : Target d path p f) (hlen : buffer.length ≤ maxWrite) {offset : ℤ}
    (hlo : -2 ^ 63 ≤ offset) (hhi : offset < 2 ^ 63) :
    (∃ code < 0, rdWrite d path buffer offset = some (d, .ofCode code) ∧
      ∀ k : ℕ, offset = k → ¬ Grows d f k buffer.length) ∨
    ∃ (k : ℕ) (d' : Disk) (f' : RdFile), offset = k ∧ k ≤ f.size ∧
      rdWrite d path buffer offset = some (d', .ofCode buffer.length) ∧ d'.heap p = some f' ∧
      f'.type = .regular ∧ d'.next = d.next ∧ (∀ x, x ≠ p → d'.heap x = d.heap x) ∧
      (Grows d f k buffer.length ∧ contents f' = grown (contents f) buffer k ∨
        k + buffer.length ≤ f.size ∧ contents f' = splice (contents f) buffer k) := by
  have hs := hi.bounded p f h.heap h.regular
  have hclen := hi.shape.length_contents h.heap h.regular
  by_cases hout : offset < 0 ∨ (f.size : ℤ) < offset
  · refine Or.inl ⟨-efbig, by decide, rdWrite_beyond h hs hlo hhi hout, fun k hk hg => ?_⟩
    have := hg.inside
    omega
  · rw [not_or, not_lt, not_lt] at hout
    obtain ⟨k, rfl⟩ := Int.eq_ofNat_of_zero_le hout.1
    have hk : k ≤ f.size := by exact_mod_cast hout.2
    rw [rdWrite_eq hi.shape h hs hlen hk]
    split_ifs with h1 h2 h3
    · refine Or.inl ⟨-enospc, by decide, rfl, fun j hj hg => ?_⟩
      obtain rfl : k = j := by exact_mod_cast hj
      have hroom : d.currentBytes + (((k + buffer.length : ℕ) : ℤ) - f.size) ≤ d.maxBytes := by
        simpa [memoryAvailable] using hg.room
      omega
    · refine Or.inr ⟨k, _, { f with data := some (grown (contents f) buffer k), size := k + buffer.length },
        rfl, hk, rfl, ?_, h.regular, rfl, fun x hx => ?_, Or.inl ⟨⟨hk, h1, ?_⟩, contents_of_length rfl ?_⟩⟩
      · show (d.setFile p _).heap p = _
        rw [setFile_heap, if_pos rfl]
      · show (d.setFile p _).heap x = _
        rw [setFile_heap, if_neg hx]
      · simpa [memoryAvailable] using h2
      · simp only [grown, List.length_append, List.length_take, length_strncpy]
        omega
    · refine Or.inr ⟨k, d, f, rfl, hk, rfl, h.heap, h.regular, rfl, fun x _ => rfl, Or.inr ⟨by omega, ?_⟩⟩
      simp [splice, h3]
    · refine Or.inr ⟨k, _, { f with data := some (splice (contents f) buffer k) }, rfl, hk, rfl, ?_,
        h.regular, rfl, fun x hx => ?_, Or.inr ⟨by omega, contents_of_length rfl ?_⟩⟩
      · rw [setFile_heap, if_pos rfl]
      · rw [setFile_heap, if_neg hx]
      · simp only [splice, List.length_append, List.length_take, List.length_drop]
        omega

/-- What a growing request stores is right exactly when `strncpy` copied right. -/
theorem grown_eq_splice_iff {old : List UInt8} {k : ℕ} (hk : k ≤ old.length) (hg : old.length < k + buffer.length) :
    grown old buffer k = splice old buffer k ↔ ZeroTail (old.take k) := by
  rw [← take_strncpy_iff hk, grown, splice, List.drop_of_length_le hg.le, List.append_nil, List.append_left_inj]

end Write

/-! ### Runs -/

/-- The step does to the file what a write does to an array of bytes: if it is
answered with its size, the bytes are put at the offset, which is inside the
file or at its end; if it is refused, the contents are as before. -/
def Refines (t : Trans Disk (Op × Reply)) : Prop :=
  ∀ path buffer offset p f, t.label.1 = .write path buffer offset → Target t.src path p f →
    ∃ f', t.dst.heap p = some f' ∧
      (t.label.2.code = buffer.length → ∃ k : ℕ, offset = k ∧ k ≤ (contents f).length ∧
        contents f' = splice (contents f) buffer k) ∧
      (t.label.2.code < 0 → contents f' = contents f)

/-- If the step is a request that makes a file grow, and there is room, no byte
in front of its offset is lost to `strncpy`. -/
def Kept (t : Trans Disk (Op × Reply)) : Prop :=
  ∀ path buffer (k : ℕ) p f, t.label.1 = .write path buffer k → Target t.src path p f →
    Grows t.src f k buffer.length → ZeroTail ((contents f).take k)

/-- The requests on the file at `p` that were answered with their size, in order. -/
def accepted (p : ℕ) (tr : List (Trans Disk (Op × Reply))) : List (ℕ × List UInt8) :=
  tr.filterMap fun t => match t.label.1 with
    | .write path buffer offset =>
      if getRdFile t.src path = some (some p) ∧ t.label.2.code = buffer.length then some (offset.toNat, buffer)
      else none
    | _ => none

section Runs

variable {m : ℤ} {stale : ℕ → Bool} {d d' : Disk} {e : Op × Reply} {tr : List (Trans Disk (Op × Reply))}

theorem refines_iff (hi : Inv d) (hst : (disk m).step d e d') : Refines ⟨d, e, d'⟩ ↔ Kept ⟨d, e, d'⟩ := by
  obtain ⟨op, r⟩ := e
  obtain ⟨hv, hex⟩ := hst
  constructor
  · intro hR path buffer k p f hop ht hg
    obtain rfl : op = .write path buffer k := hop
    obtain ⟨-, hlen, hlo, hhi⟩ := hv.write path buffer k rfl
    have hclen := hi.shape.length_contents ht.heap ht.regular
    rcases write_outcome hi ht hlen hlo hhi with ⟨code, -, -, hno⟩ | ⟨j, d₁, f', hj, -, hw, hf', -, -, -, hc⟩
    · exact absurd hg (hno k rfl)
    · obtain rfl : k = j := by exact_mod_cast hj
      obtain ⟨rfl, rfl⟩ := Prod.mk.inj (Option.some.inj (hex.symm.trans hw))
      obtain ⟨f₁, hf₁, hcode, -⟩ := hR path buffer k p f rfl ht
      obtain rfl := Option.some.inj (hf₁.symm.trans hf')
      obtain ⟨i, hi', -, hsp⟩ := hcode rfl
      obtain rfl : k = i := by exact_mod_cast hi'
      rcases hc with ⟨-, hc⟩ | ⟨hin, -⟩
      · exact (grown_eq_splice_iff (hclen ▸ hg.inside) (hclen ▸ hg.grows)).mp (hc.symm.trans hsp)
      · exact absurd hg.grows (by omega)
  · intro hK path buffer offset p f hop ht
    obtain rfl : op = .write path buffer offset := hop
    obtain ⟨-, hlen, hlo, hhi⟩ := hv.write path buffer offset rfl
    have hclen := hi.shape.length_contents ht.heap ht.regular
    rcases write_outcome hi ht hlen hlo hhi with ⟨code, hneg, hw, -⟩ | ⟨k, d₁, f', rfl, hk, hw, hf', -, -, -, hc⟩
    · obtain ⟨rfl, rfl⟩ := Prod.mk.inj (Option.some.inj (hex.symm.trans hw))
      refine ⟨f, ht.heap, fun hcode => ?_, fun _ => rfl⟩
      have hcode' : code = buffer.length := hcode
      omega
    · obtain ⟨rfl, rfl⟩ := Prod.mk.inj (Option.some.inj (hex.symm.trans hw))
      refine ⟨f', hf', fun _ => ⟨k, rfl, hclen ▸ hk, ?_⟩, fun hneg => ?_⟩
      · rcases hc with ⟨hg, hc⟩ | ⟨-, hc⟩
        · rw [hc]
          exact (grown_eq_splice_iff (hclen ▸ hk) (hclen ▸ hg.grows)).mpr (hK path buffer k p f rfl ht hg)
        · exact hc
      · have hneg' : (buffer.length : ℤ) < 0 := hneg
        omega

/-- Nothing but a write changes contents. -/
theorem Change.contents {op : Op} (h : Change d op d') (hop : ∀ path buffer offset, op ≠ .write path buffer offset)
    {p : ℕ} {f' : RdFile} (hp : d'.heap p = some f') (hr : f'.type = .regular) :
    (p = d.next ∧ Ramdisk.contents f' = []) ∨
      ∃ f, d.heap p = some f ∧ f.type = .regular ∧ Ramdisk.contents f' = Ramdisk.contents f := by
  -- what a new file leaves as it was
  have hadd : ∀ {q : ℕ} {g : RdFile} {name path : Text} {type : FileType}, d.heap q = some g →
      (addFile d q g (createRdFile name path type)).heap p = some f' → (p = d.next ∧ Ramdisk.contents f' = []) ∨
        ∃ f, d.heap p = some f ∧ f.type = .regular ∧ Ramdisk.contents f' = Ramdisk.contents f := by
    intro q g name path type hq hp
    rw [addFile_heap] at hp
    split_ifs at hp with h1 h2
    · obtain rfl := Option.some.inj hp
      exact Or.inr ⟨g, h1 ▸ hq, hr, rfl⟩
    · obtain rfl := Option.some.inj hp
      exact Or.inl ⟨h2, by simp [Ramdisk.contents, createRdFile]⟩
    · exact Or.inr ⟨f', hp, hr, rfl⟩
  have hremove : ∀ {q x : ℕ} {g : RdFile}, d.heap q = some g → (removeFile d q g x).heap p = some f' →
      ∃ f, d.heap p = some f ∧ f.type = .regular ∧ Ramdisk.contents f' = Ramdisk.contents f := by
    intro q x g hq hp
    rw [removeFile_heap] at hp
    split_ifs at hp with h1 h2
    · obtain rfl := Option.some.inj hp
      exact ⟨g, h2 ▸ hq, hr, rfl⟩
    · exact ⟨f', hp, hr, rfl⟩
  cases h with
  | same => exact Or.inr ⟨f', hp, hr, rfl⟩
  | @mark x f hx =>
    rw [setFile_heap] at hp
    split_ifs at hp with h1
    · obtain rfl := Option.some.inj hp
      exact Or.inr ⟨f, h1 ▸ hx, hr, rfl⟩
    · exact Or.inr ⟨f', hp, hr, rfl⟩
  | create _ hq _ _ => exact hadd hq hp
  | mkdir _ hq _ _ => exact hadd hq hp
  | unlink _ hq _ _ _ => exact Or.inr (hremove hq hp)
  | rmdir _ hq _ _ _ _ => exact Or.inr (hremove hq hp)
  | write hw =>
    obtain ⟨path, buffer, offset, rfl⟩ := hw
    exact absurd rfl (hop path buffer offset)

/-- Every regular file is what the requests on it make of the empty array. -/
structure Replayed (tr : List (Trans Disk (Op × Reply))) (d : Disk) : Prop where
  contents : ∀ p f, d.heap p = some f → f.type = .regular → Ramdisk.contents f = replay (accepted p tr)
  fresh : ∀ p, d.next ≤ p → accepted p tr = []

theorem accepted_of_ne_write (hop : ∀ path buffer offset, e.1 ≠ .write path buffer offset) (p : ℕ) :
    accepted p (tr ++ [⟨d, e, d'⟩]) = accepted p tr := by
  obtain ⟨op, r⟩ := e
  unfold accepted
  rw [List.filterMap_append]
  cases op with
  | write path buffer offset => exact absurd rfl (hop path buffer offset)
  | _ => exact List.append_nil _

theorem accepted_write {path : Text} {buffer : List UInt8} {offset : ℤ} {r : Reply} {p x : ℕ}
    (hp : getRdFile d path = some (some p)) :
    accepted x (tr ++ [⟨d, (.write path buffer offset, r), d'⟩]) =
      if p = x ∧ r.code = buffer.length then accepted x tr ++ [(offset.toNat, buffer)] else accepted x tr := by
  simp only [accepted, List.filterMap_append, List.filterMap_cons, List.filterMap_nil, hp, Option.some.injEq]
  split_ifs <;> simp

theorem Replayed.step_other (h : Replayed tr d) (hch : Change d e.1 d')
    (hop : ∀ path buffer offset, e.1 ≠ .write path buffer offset) : Replayed (tr ++ [⟨d, e, d'⟩]) d' := by
  have hnext : d.next ≤ d'.next := by
    cases hch <;> first | exact le_rfl | exact Nat.le_succ _
  refine ⟨fun p f hp hr => ?_, fun p hp => ?_⟩
  · rw [accepted_of_ne_write hop]
    rcases hch.contents hop hp hr with ⟨rfl, hc⟩ | ⟨f₀, hf₀, hr₀, hc⟩
    · rw [hc, h.fresh d.next le_rfl]
      rfl
    · rw [hc]
      exact h.contents p f₀ hf₀ hr₀
  · rw [accepted_of_ne_write hop]
    exact h.fresh p (hnext.trans hp)

theorem Replayed.step_write {path : Text} {buffer : List UInt8} {offset : ℤ} {r : Reply} {p : ℕ} {f : RdFile}
    (h : Replayed tr d) (hi : Inv d) (ht : Target d path p f)
    (hst : (disk m).step d (.write path buffer offset, r) d') (hK : Kept ⟨d, (.write path buffer offset, r), d'⟩) :
    Replayed (tr ++ [⟨d, (.write path buffer offset, r), d'⟩]) d' := by
  obtain ⟨hv, hex⟩ := id hst
  obtain ⟨-, hlen, hlo, hhi⟩ := hv.write path buffer offset rfl
  have hpn := hi.shape.lt_next ht.heap
  rcases write_outcome hi ht hlen hlo hhi with ⟨code, hneg, hw, -⟩ | ⟨k, d₁, f', rfl, -, hw, -, -, hnext, hoth, -⟩
  · obtain ⟨rfl, rfl⟩ := Prod.mk.inj (Option.some.inj (hex.symm.trans hw))
    have hno : ∀ x, accepted x (tr ++ [⟨d', (.write path buffer offset, .ofCode code), d'⟩]) = accepted x tr := by
      intro x
      rw [accepted_write ht.found, if_neg]
      rintro ⟨-, hcode⟩
      have hcode' : code = buffer.length := hcode
      omega
    exact ⟨fun x y hx hr => by rw [hno]; exact h.contents x y hx hr, fun x hx => by rw [hno]; exact h.fresh x hx⟩
  · obtain ⟨rfl, rfl⟩ := Prod.mk.inj (Option.some.inj (hex.symm.trans hw))
    refine ⟨fun x y hx hr => ?_, fun x hx => ?_⟩
    · rw [accepted_write ht.found]
      by_cases hxp : p = x
      · subst hxp
        obtain ⟨f₁, hf₁, hcode, -⟩ := (refines_iff hi hst).mpr hK path buffer k p f rfl ht
        obtain rfl := Option.some.inj (hf₁.symm.trans hx)
        obtain ⟨i, hik, -, hc⟩ := hcode rfl
        obtain rfl : k = i := by exact_mod_cast hik
        rw [if_pos ⟨rfl, rfl⟩, replay_snoc, hc, h.contents p f ht.heap ht.regular]
        rfl
      · rw [if_neg fun hc => hxp hc.1]
        rw [hoth x (Ne.symm hxp)] at hx
        exact h.contents x y hx hr
    · rw [accepted_write ht.found, if_neg fun hc => by omega]
      exact h.fresh x (hnext ▸ hx)

/-- Along a run of such steps nothing is lost. -/
theorem replayed_run (hm : Capacity m) (hr : (disk m).Run (Disk.start m stale) tr d) (hK : ∀ t ∈ tr, Kept t) :
    Inv d ∧ Replayed tr d := by
  induction hr with
  | nil =>
    have hi := inv_start hm stale
    refine ⟨hi, fun p f hp hr => ?_, fun p _ => rfl⟩
    -- the only file is the root
    have hlt : p < 1 := hi.shape.lt_next hp
    have hne := hi.shape.regular_ne_root hp hr
    unfold root at hne
    omega
  | @snoc d d' tr e hrun hst ih =>
    obtain ⟨hi, hrep⟩ := ih fun t ht => hK t (List.mem_append_left _ ht)
    have hKe := hK _ (List.mem_append_right _ (List.mem_singleton_self _))
    refine ⟨inv_step hi hst, ?_⟩
    obtain ⟨op, r⟩ := e
    by_cases hop : ∃ path buffer offset, op = .write path buffer offset
    · obtain ⟨path, buffer, offset, rfl⟩ := hop
      obtain ⟨hreg, -⟩ := hst.1.write path buffer offset rfl
      obtain ⟨p, f, ht⟩ := hreg.target hi.shape hst.1.parent hst.1.absolute
      exact hrep.step_write hi ht hst hKe
    · have hch := exec_change hi.shape hi.bounded hst.1 hst.2
      exact hrep.step_other hch fun path buffer offset h => hop ⟨path, buffer, offset, h⟩

/-- **Files are arrays of bytes as long as `strncpy` loses nothing**: in every
run the writes refine those on an array exactly if no accepted request that
makes a file grow has, in front of its offset, a byte other than a zero behind
a zero; then every file is all that was written to it, and a stream of chunks
is their concatenation. -/
theorem writes_refine_iff (hm : Capacity m) (hr : (disk m).Run (Disk.start m stale) tr d) :
    ((∀ t ∈ tr, Refines t) ↔ ∀ t ∈ tr, Kept t) ∧
    ((∀ t ∈ tr, Kept t) → ∀ p f, d.heap p = some f → f.type = .regular →
      contents f = replay (accepted p tr) ∧
      ∀ chunks, accepted p tr = chunked 0 chunks → contents f = chunks.flatten) := by
  have hiff : ∀ t ∈ tr, (Refines t ↔ Kept t) := by
    intro t ht
    obtain ⟨⟨tr', hr'⟩, hst⟩ := hr.step_of_mem ht
    exact refines_iff (inv_reachable hm ⟨_, _, ⟨_, rfl⟩, hr'⟩) hst
  refine ⟨⟨fun h t ht => (hiff t ht).mp (h t ht), fun h t ht => (hiff t ht).mpr (h t ht)⟩, fun hK p f hp hreg => ?_⟩
  have hc := (replayed_run hm hr hK).2.contents p f hp hreg
  refine ⟨hc, fun chunks hch => ?_⟩
  rw [hc, hch, replay_chunked]

end Runs

/-! ### A binary file in two requests -/

/-- A disk of 1 MB with the empty file `/f`. -/
def emptyFile : Disk :=
  addFile (Disk.start (2 ^ 20) zeroed) root (createRdFile rootName [] .directory)
    (createRdFile "f".toList rootName .regular)

/-- The same disk, with these bytes in the file. -/
def Disk.withBytes (d : Disk) (bytes : List UInt8) : Disk :=
  { d.setFile 1 { createRdFile "f".toList rootName .regular with
      parent := some root, data := some bytes, size := bytes.length } with currentBytes := bytes.length }

/-- `/f` is created, two bytes are written to it, and then a third behind them. -/
def appending : List (Trans Disk (Op × Reply)) :=
  [⟨Disk.start (2 ^ 20) zeroed, (.create "/f".toList, .ofCode 0), emptyFile⟩,
    ⟨emptyFile, (.write "/f".toList [0, 1] 0, .ofCode 2), emptyFile.withBytes [0, 1]⟩,
    ⟨emptyFile.withBytes [0, 1], (.write "/f".toList [2] 2, .ofCode 1),
      (emptyFile.withBytes [0, 1]).withBytes [0, 0, 2]⟩]

theorem target_emptyFile : Target emptyFile "/f".toList 1
    { createRdFile "f".toList rootName .regular with parent := some root } := ⟨by decide, rfl, rfl, rfl⟩

theorem target_withBytes (bytes : List UInt8) : Target (emptyFile.withBytes bytes) "/f".toList 1
    { createRdFile "f".toList rootName .regular with
      parent := some root, data := some bytes, size := bytes.length } := ⟨by decide, rfl, rfl, rfl⟩

/-- The first request is stored as it is. -/
theorem exec_emptyFile : exec emptyFile (.write "/f".toList [0, 1] 0) =
    some (emptyFile.withBytes [0, 1], .ofCode 2) := by
  have hshape : Shape emptyFile := (tree_start _ _).shape.addFile rfl rfl fun _ => by decide
  have hw : rdWrite emptyFile "/f".toList [0, 1] (0 : ℕ) = _ :=
    rdWrite_eq hshape target_emptyFile (by decide) (by decide) (by decide)
  rw [if_pos (by decide), if_neg (by decide)] at hw
  exact hw

theorem run_appending : (disk (2 ^ 20)).Run (Disk.start (2 ^ 20) zeroed) appending
    ((emptyFile.withBytes [0, 1]).withBytes [0, 0, 2]) := by
  have hcreate : Vfs (Disk.start (2 ^ 20) zeroed) (.create "/f".toList) :=
    ⟨⟨_, rfl⟩, ⟨_, _, root, rfl, rfl⟩, nofun, nofun, nofun⟩
  have hwrite : ∀ {d : Disk} {f : RdFile} {buffer : List UInt8} {offset : ℤ}, Target d "/f".toList 1 f →
      buffer.length ≤ 2 → 0 ≤ offset → offset ≤ 2 → Vfs d (.write "/f".toList buffer offset) := by
    intro d f buffer offset ht hlen hlo hhi
    refine ⟨⟨_, rfl⟩, ⟨_, _, root, rfl, rfl⟩, nofun, ?_, nofun⟩
    rintro p b o ⟨⟩
    exact ⟨⟨1, f, ht.found, ht.heap, ht.regular⟩, hlen.trans (by decide), by omega, by omega⟩
  have h1 : (disk (2 ^ 20)).step (Disk.start (2 ^ 20) zeroed) (.create "/f".toList, .ofCode 0) emptyFile :=
    ⟨hcreate, rfl⟩
  have h2 : (disk (2 ^ 20)).step emptyFile (.write "/f".toList [0, 1] 0, .ofCode 2) (emptyFile.withBytes [0, 1]) :=
    ⟨hwrite target_emptyFile (by decide) (by decide) (by decide), exec_emptyFile⟩
  have h3 : (disk (2 ^ 20)).step (emptyFile.withBytes [0, 1]) (.write "/f".toList [2] 2, .ofCode 1)
      ((emptyFile.withBytes [0, 1]).withBytes [0, 0, 2]) :=
    ⟨hwrite (target_withBytes _) (by decide) (by decide) (by decide), rfl⟩
  exact (((Lts.Run.nil _).snoc h1).snoc h2).snoc h3

/-- **The byte behind a zero is lost** when the file grows: `00 01` with `02`
behind it becomes `00 00 02`. -/
theorem append_behind_zero : Capacity (2 ^ 20) ∧ (disk (2 ^ 20)).Run (Disk.start (2 ^ 20) zeroed) appending
    ((emptyFile.withBytes [0, 1]).withBytes [0, 0, 2]) ∧ ¬ ∀ t ∈ appending, Refines t := by
  refine ⟨megabyte, run_appending, fun h => ?_⟩
  have hlast := h ⟨emptyFile.withBytes [0, 1], (.write "/f".toList [2] 2, .ofCode 1),
      (emptyFile.withBytes [0, 1]).withBytes [0, 0, 2]⟩ (by simp [appending])
  obtain ⟨f', hf', hcode, -⟩ := hlast _ _ _ _ _ rfl (target_withBytes [0, 1])
  obtain ⟨k, hk, -, hc⟩ := hcode rfl
  obtain rfl : 2 = k := by exact_mod_cast hk
  obtain rfl := Option.some.inj hf'
  exact absurd hc (by decide)

theorem writes_refine_iff_appending : Capacity (2 ^ 20) ∧ (disk (2 ^ 20)).Run (Disk.start (2 ^ 20) zeroed) appending
    ((emptyFile.withBytes [0, 1]).withBytes [0, 0, 2]) ∧
    ((∀ t ∈ appending, Refines t) ↔ ∀ t ∈ appending, Kept t) :=
  ⟨megabyte, run_appending, (writes_refine_iff megabyte run_appending).1⟩

end Ramdisk
end Csc501

/-
# Blocks of memory, allocated and freed

`malloc` gives out blocks, `free` takes back one that was given out and not freed since,
and fails on any other. The blocks are numbered, each with a number of its own, so a block
that is freed twice or was never given out is found. A ledger is an equation between
multisets: what is live is what was live before and what a function has in hand
(`freeAll_eq`).

Key definitions: `Blocks`, `Blocks.malloc`, `Blocks.free`, `Blocks.realloc`, `Blocks.freeAll`.
Key theorems: `Blocks.free_eq`, `Blocks.freeAll_eq`, `Blocks.realloc_eq`.
-/
import Mathlib.Data.Multiset.AddSub

namespace Csc501
namespace Lib

/-- The blocks that are live, and the number of the next one. -/
structure Blocks where
  next : ℕ
  live : Multiset ℕ
  given : ∀ b ∈ live, b < next
  nodup : live.Nodup

namespace Blocks

/-- Nothing is allocated. -/
def none : Blocks := ⟨0, 0, by simp, Multiset.nodup_zero⟩

/-- The new block, and what is live then. -/
def malloc (m : Blocks) : ℕ × Blocks :=
  (m.next, ⟨m.next + 1, m.next ::ₘ m.live, by
    intro b hb
    rcases Multiset.mem_cons.mp hb with rfl | hb
    · exact Nat.lt_succ_self _
    · exact Nat.lt_succ_of_lt (m.given b hb),
    Multiset.nodup_cons.mpr ⟨fun h => lt_irrefl _ (m.given _ h), m.nodup⟩⟩)

/-- A block is freed; it must be live. -/
def free (m : Blocks) (b : ℕ) : Option Blocks :=
  if b ∈ m.live then
    some ⟨m.next, m.live.erase b, fun c hc => m.given c (Multiset.mem_of_mem_erase hc), m.nodup.erase b⟩
  else Option.none

/-- A block is freed for a new one. -/
def realloc (m : Blocks) (b : ℕ) : Option (ℕ × Blocks) := (m.free b).map malloc

/-- Blocks are freed one after the other. -/
def freeAll : List ℕ → Blocks → Option Blocks
  | [], m => some m
  | b :: l, m => (m.free b).bind (freeAll l)

variable {m : Blocks} {base : Multiset ℕ} {b : ℕ}

@[simp] theorem malloc_live (m : Blocks) : m.malloc.2.live = m.malloc.1 ::ₘ m.live := rfl

theorem free_eq (h : m.live = b ::ₘ base) : ∃ m', m.free b = some m' ∧ m'.live = base := by
  have hb : b ∈ m.live := h ▸ Multiset.mem_cons_self b base
  refine ⟨_, if_pos hb, ?_⟩
  change m.live.erase b = base
  rw [h, Multiset.erase_cons_head]

theorem realloc_eq (h : m.live = b ::ₘ base) :
    ∃ r, m.realloc b = some r ∧ r.2.live = r.1 ::ₘ base := by
  obtain ⟨m', hfree, hlive⟩ := free_eq h
  refine ⟨m'.malloc, ?_, ?_⟩
  · rw [realloc, hfree, Option.map_some]
  · rw [malloc_live, hlive]

theorem freeAll_append : ∀ (l l' : List ℕ) (m : Blocks), freeAll (l ++ l') m = (freeAll l m).bind (freeAll l')
  | [], _, _ => rfl
  | b :: l, l', m => by
    rw [List.cons_append, freeAll, freeAll, Option.bind_assoc]
    exact congrArg _ (funext (freeAll_append l l'))

/-- **What is in hand can be freed.** -/
theorem freeAll_eq : ∀ {own : List ℕ} {m : Blocks}, m.live = base + own →
    ∃ m', freeAll own m = some m' ∧ m'.live = base
  | [], m, h => ⟨m, rfl, by simpa using h⟩
  | b :: own, m, h => by
    have hcons : m.live = b ::ₘ (base + own) := by rw [h, ← Multiset.cons_coe, Multiset.add_cons]
    obtain ⟨m₁, hfree, hlive⟩ := free_eq hcons
    obtain ⟨m₂, hrest, hbase⟩ := freeAll_eq hlive
    exact ⟨m₂, by rw [freeAll, hfree, Option.bind_some, hrest], hbase⟩

end Blocks

end Lib
end Csc501

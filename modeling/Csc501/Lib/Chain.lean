/-
# Linked lists in a heap

Nodes with a value and a pointer to the next one, in a heap that is a partial map from
addresses. `Chain h p l q` says that from the pointer `p` the nodes `l`, given as their
addresses and values, are linked one behind the other, and the last one's pointer is
`q`. A chain that ends with the null pointer has no node twice (`Chain.nodup`), and what
is stored elsewhere leaves it alone (`Chain.frame`).

Key definitions: `Node`, `Heap`, `Chain`.
Key theorems: `chain_append`, `Chain.frame`, `Chain.relink`, `Chain.unique`, `Chain.nodup`.
-/
import Mathlib.Data.List.Nodup
import Mathlib.Logic.Function.Basic

namespace Csc501
namespace Lib

/-- A node of a linked list. -/
structure Node (α : Type*) where
  val : α
  next : Option ℕ
  deriving DecidableEq

/-- What is allocated, by address. -/
abbrev Heap (α : Type*) := ℕ → Option (Node α)

/-- The addresses of some nodes. -/
def addresses {α : Type*} (l : List (ℕ × α)) : List ℕ := l.map Prod.fst

/-- The values of some nodes. -/
def values {α : Type*} (l : List (ℕ × α)) : List α := l.map Prod.snd

section Chains

variable {α : Type*} {h h' : Heap α} {p q : Option ℕ} {l l' : List (ℕ × α)}

@[simp] theorem addresses_nil : addresses ([] : List (ℕ × α)) = [] := rfl

@[simp] theorem addresses_cons (a : ℕ) (x : α) (l : List (ℕ × α)) : addresses ((a, x) :: l) = a :: addresses l := rfl

@[simp] theorem addresses_append (l l' : List (ℕ × α)) : addresses (l ++ l') = addresses l ++ addresses l' :=
  List.map_append

@[simp] theorem values_nil : values ([] : List (ℕ × α)) = [] := rfl

@[simp] theorem values_cons (a : ℕ) (x : α) (l : List (ℕ × α)) : values ((a, x) :: l) = x :: values l := rfl

@[simp] theorem values_append (l l' : List (ℕ × α)) : values (l ++ l') = values l ++ values l' := List.map_append

theorem last_address (l : List (ℕ × α)) (a : ℕ) (x : α) : (addresses (l ++ [(a, x)])).getLast? = some a := by simp

theorem last_fresh {a : ℕ} {x : α} (h : (addresses (l ++ [(a, x)])).Nodup) : a ∉ addresses l := by
  rw [addresses_append, List.nodup_append] at h
  exact fun hm => h.2.2 a hm a (by simp) rfl

/-- From `p` the nodes `l` are linked, and the last one points to `q`. -/
def Chain (h : Heap α) : Option ℕ → List (ℕ × α) → Option ℕ → Prop
  | p, [], q => p = q
  | p, (a, x) :: l, q => p = some a ∧ ∃ n, h a = some ⟨x, n⟩ ∧ Chain h n l q

theorem chain_append : ∀ {l : List (ℕ × α)} {p : Option ℕ},
    Chain h p (l ++ l') q ↔ ∃ r, Chain h p l r ∧ Chain h r l' q
  | [], p => by simp [Chain]
  | (a, x) :: l, p => by
    simp only [List.cons_append, Chain, chain_append (l := l)]
    constructor
    · rintro ⟨rfl, n, hn, r, h1, h2⟩
      exact ⟨r, ⟨rfl, n, hn, h1⟩, h2⟩
    · rintro ⟨r, ⟨rfl, n, hn, h1⟩, h2⟩
      exact ⟨rfl, n, hn, r, h1, h2⟩

/-- Where a chain begins. -/
theorem Chain.head_mem {a : ℕ} (hc : Chain h (some a) l q) (hne : l ≠ []) : a ∈ addresses l := by
  cases l with
  | nil => exact absurd rfl hne
  | cons y l =>
    obtain rfl := Option.some.inj hc.1
    exact List.mem_cons_self

/-- The nodes of a chain are allocated. -/
theorem Chain.live : ∀ {l : List (ℕ × α)} {p : Option ℕ}, Chain h p l q → ∀ {a : ℕ}, a ∈ addresses l → h a ≠ none
  | (b, x) :: l, p, ⟨_, n, hn, hc⟩, a, ha => by
    rcases List.mem_cons.mp ha with rfl | ha
    · rw [hn]
      simp
    · exact hc.live ha

/-- What is stored outside of a chain leaves it alone. -/
theorem Chain.frame : ∀ {l : List (ℕ × α)} {p : Option ℕ}, Chain h p l q → (∀ a ∈ addresses l, h' a = h a) →
    Chain h' p l q
  | [], p, hc, _ => hc
  | (a, x) :: l, p, ⟨hp, n, hn, hc⟩, hsame =>
    ⟨hp, n, by rw [hsame a (by simp), hn], hc.frame fun b hb => hsame b (List.mem_cons_of_mem a hb)⟩

theorem Chain.update {a : ℕ} {c : Option (Node α)} (hc : Chain h p l q) (ha : a ∉ addresses l) :
    Chain (Function.update h a c) p l q := by
  apply hc.frame
  intro b hb
  rw [Function.update_of_ne]
  rintro rfl
  exact ha hb

/-- The last node of a chain is made to point elsewhere. -/
theorem Chain.relink {a : ℕ} {x : α} (hc : Chain h p (l ++ [(a, x)]) q) (ha : a ∉ addresses l) (r : Option ℕ) :
    Chain (Function.update h a (some ⟨x, r⟩)) p (l ++ [(a, x)]) r := by
  obtain ⟨s, h1, rfl, -⟩ := chain_append.mp hc
  exact chain_append.mpr ⟨some a, h1.update ha, rfl, r, by simp, rfl⟩

/-- A chain up to the null pointer is determined by where it begins. -/
theorem Chain.unique : ∀ {l l' : List (ℕ × α)} {p : Option ℕ}, Chain h p l none → Chain h p l' none → l = l'
  | [], [], p, _, _ => rfl
  | [], (a, x) :: l', p, hc, ⟨hp, _⟩ => absurd (hc.symm.trans hp) (by simp)
  | (a, x) :: l, [], p, ⟨hp, _⟩, hc' => absurd (hp.symm.trans hc') (by simp)
  | (a, x) :: l, (b, y) :: l', p, ⟨hp, n, hn, hc⟩, ⟨hp', n', hn', hc'⟩ => by
    obtain rfl := Option.some.inj (hp.symm.trans hp')
    obtain ⟨rfl, rfl⟩ : x = y ∧ n = n' := by simpa [hn] using hn'
    rw [hc.unique hc']

/-- **A chain up to the null pointer has no node twice.** -/
theorem Chain.nodup : ∀ {l : List (ℕ × α)} {p : Option ℕ}, Chain h p l none → (addresses l).Nodup
  | [], p, _ => List.nodup_nil
  | (a, x) :: l, p, hc => by
    obtain ⟨rfl, n, hn, htail⟩ := id hc
    refine List.nodup_cons.mpr ⟨?_, htail.nodup⟩
    intro hmem
    -- the chain from the second occurrence on would be the whole chain again
    obtain ⟨⟨b, y⟩, hb, rfl⟩ := List.mem_map.mp hmem
    obtain ⟨l₁, l₂, rfl⟩ := List.append_of_mem hb
    obtain ⟨r, -, hr⟩ := chain_append.mp htail
    obtain rfl : r = some b := hr.1
    have heq := congrArg List.length (hc.unique hr)
    simp only [List.length_cons, List.length_append] at heq
    omega

end Chains

end Lib
end Csc501

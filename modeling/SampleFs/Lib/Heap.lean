import Mathlib.Data.Multiset.AddSub
import Mathlib.Logic.Function.Basic
import SampleFs.Lib.Exec

/-!
# A heap and its ledger

Blocks by address. A block is there from `malloc` to `free`, and reading or freeing one that is not
there is a fault. A ledger lists the blocks that are there, each once, so it says both that nothing
is freed twice and what is never freed.
-/

namespace SampleFs.Lib
variable {α : Type}

structure Heap (α : Type) where
  cell : Nat → Option α
  next : Nat

namespace Heap

def empty : Heap α := ⟨fun _ => none, 0⟩

def malloc (h : Heap α) (content : α) : Nat × Heap α :=
  (h.next, ⟨Function.update h.cell h.next (some content), h.next + 1⟩)

def load (h : Heap α) (address : Nat) : Exec Fault α :=
  match h.cell address with
  | some content => .ok content
  | none => .fail .useAfterFree

def store (h : Heap α) (address : Nat) (content : α) : Exec Fault (Heap α) := do
  let _ ← h.load address
  return ⟨Function.update h.cell address (some content), h.next⟩

def free (h : Heap α) (address : Nat) : Exec Fault (Heap α) := do
  let _ ← h.load address
  return ⟨Function.update h.cell address none, h.next⟩

theorem load_eq {h : Heap α} {address : Nat} {content : α} (there : h.cell address = some content) :
    h.load address = .ok content := by
  rw [load, there]

theorem store_eq {h : Heap α} {address : Nat} {old : α} (there : h.cell address = some old) (content : α) :
    h.store address content = .ok ⟨Function.update h.cell address (some content), h.next⟩ := by
  rw [store, load_eq there]
  rfl

theorem free_eq {h : Heap α} {address : Nat} {content : α} (there : h.cell address = some content) :
    h.free address = .ok ⟨Function.update h.cell address none, h.next⟩ := by
  rw [free, load_eq there]
  rfl

end Heap

structure Ledger (h : Heap α) (blocks : Multiset Nat) : Prop where
  once : blocks.Nodup
  exact_ : ∀ a, (h.cell a).isSome ↔ a ∈ blocks
  below : ∀ a ∈ blocks, a < h.next

namespace Ledger
variable {h : Heap α} {blocks : Multiset Nat}

theorem empty : Ledger (Heap.empty : Heap α) 0 := ⟨Multiset.nodup_zero, by simp [Heap.empty], by simp⟩

theorem fresh (ledger : Ledger h blocks) : h.next ∉ blocks := fun member => Nat.lt_irrefl _ (ledger.below _ member)

theorem cell_eq_none (ledger : Ledger h 0) (a : Nat) : h.cell a = none := by
  rw [← Option.not_isSome_iff_eq_none, ledger.exact_]
  exact Multiset.notMem_zero a

theorem malloc (ledger : Ledger h blocks) (content : α) :
    Ledger (h.malloc content).2 ((h.malloc content).1 ::ₘ blocks) := by
  refine ⟨Multiset.nodup_cons.mpr ⟨ledger.fresh, ledger.once⟩, ?_, ?_⟩
  · intro a
    rw [Multiset.mem_cons]
    by_cases new : a = h.next
    · simp [Heap.malloc, new]
    · simp [Heap.malloc, new, ledger.exact_ a]
  · intro a member
    rcases Multiset.mem_cons.mp member with rfl | old
    · exact Nat.lt_succ_self _
    · exact Nat.lt_succ_of_lt (ledger.below a old)

theorem malloc_other (ledger : Ledger h blocks) (content : α) {a : Nat} (member : a ∈ blocks) :
    (h.malloc content).2.cell a = h.cell a := by
  have other : a ≠ h.next := fun same => ledger.fresh (same ▸ member)
  simp [Heap.malloc, other]

theorem store (ledger : Ledger h blocks) {a : Nat} (member : a ∈ blocks) (content : α) :
    Ledger ⟨Function.update h.cell a (some content), h.next⟩ blocks := by
  refine ⟨ledger.once, ?_, ledger.below⟩
  intro b
  by_cases here : b = a
  · simp [here, member]
  · simp [here, ledger.exact_ b]

theorem free_at {a : Nat} (ledger : Ledger h (a ::ₘ blocks)) :
    Ledger ⟨Function.update h.cell a none, h.next⟩ blocks := by
  obtain ⟨absent, once⟩ := Multiset.nodup_cons.mp ledger.once
  refine ⟨once, ?_, fun b member => ledger.below b (Multiset.mem_cons_of_mem member)⟩
  intro b
  by_cases here : b = a
  · simp [here, absent]
  · simp [here, ledger.exact_ b]

theorem free {a : Nat} (ledger : Ledger h (a ::ₘ blocks)) :
    ∃ h', h.free a = .ok h' ∧ Ledger h' blocks ∧ ∀ b, b ≠ a → h'.cell b = h.cell b := by
  obtain ⟨content, held⟩ := Option.isSome_iff_exists.mp ((ledger.exact_ a).mpr (Multiset.mem_cons_self a blocks))
  refine ⟨_, Heap.free_eq held, ledger.free_at, ?_⟩
  intro b other
  exact Function.update_of_ne other _ _

end Ledger

end SampleFs.Lib

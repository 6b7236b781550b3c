import Mathlib.Data.List.Basic
import Mathlib.Logic.Function.Basic

/-!
# Hashes that take a message block by block

A state absorbs the blocks of a message and then what is left of it. If no step forgets the state or
the block it is given, a change within one block always shows in the final state.
-/

namespace SampleFs.Lib
variable {σ α : Type}

def absorbBlocks (n : Nat) (step last : σ → List α → σ) : Nat → List α → σ → σ
  | 0, key, s => last s key
  | fuel + 1, key, s =>
      if n ≤ key.length then absorbBlocks n step last fuel (key.drop n) (step s (key.take n)) else last s key

/-- There are no more blocks than elements. -/
def absorb (n : Nat) (step last : σ → List α → σ) (key : List α) (s : σ) : σ := absorbBlocks n step last key.length key s

structure Mixes (n : Nat) (step last : σ → List α → σ) : Prop where
  state : ∀ block : List α, block.length = n → Function.Injective fun s => step s block
  block : ∀ s left right, left.length = n → right.length = n → step s left = step s right → left = right
  lastState : ∀ rest : List α, rest.length < n → Function.Injective fun s => last s rest
  lastRest : ∀ s left right, left.length < n → left.length = right.length → last s left = last s right → left = right

/-- Two messages of one length that are not the same, and the same outside one of their blocks. -/
structure DifferInBlock (n : Nat) (key other : List α) : Prop where
  differ : key ≠ other
  length : key.length = other.length
  outside : ∃ block, ∀ i : Nat, i / n ≠ block → key[i]? = other[i]?

namespace DifferInBlock
variable {n : Nat} {key other : List α}

/-- The first blocks differ and the rest is the same, or the other way round. -/
theorem split (differ : DifferInBlock n key other) (pos : 0 < n) :
    key.take n ≠ other.take n ∧ key.drop n = other.drop n ∨
      key.take n = other.take n ∧ DifferInBlock n (key.drop n) (other.drop n) := by
  obtain ⟨apart, length, block, outside⟩ := differ
  cases block with
  | zero =>
      have rest : key.drop n = other.drop n := by
        apply List.ext_getElem?
        intro i
        rw [List.getElem?_drop, List.getElem?_drop]
        apply outside
        rw [Nat.add_div_left i pos]
        exact Nat.succ_ne_zero _
      refine .inl ⟨?_, rest⟩
      intro first
      apply apart
      rw [← List.take_append_drop n key, ← List.take_append_drop n other, first, rest]
  | succ block =>
      have first : key.take n = other.take n := by
        apply List.ext_getElem?
        intro i
        rw [List.getElem?_take, List.getElem?_take]
        by_cases inside : i < n
        · rw [if_pos inside, if_pos inside]
          apply outside
          rw [Nat.div_eq_of_lt inside]
          exact (Nat.succ_ne_zero block).symm
        · rw [if_neg inside, if_neg inside]
      refine .inr ⟨first, ?_, by rw [List.length_drop, List.length_drop, length], block, ?_⟩
      · intro rest
        apply apart
        rw [← List.take_append_drop n key, ← List.take_append_drop n other, first, rest]
      · intro i away
        rw [List.getElem?_drop, List.getElem?_drop]
        apply outside
        rw [Nat.add_div_left i pos]
        exact fun same => away (Nat.succ.inj same)

end DifferInBlock

section
variable {n : Nat} {step last : σ → List α → σ} (mixes : Mixes n step last) (pos : 0 < n)
include mixes pos

theorem absorbBlocks_injective {fuel : Nat} {key : List α} (enough : key.length ≤ fuel) :
    Function.Injective (absorbBlocks n step last fuel key) := by
  induction fuel generalizing key with
  | zero => exact mixes.lastState key (by omega)
  | succ fuel ih =>
      intro s t same
      simp only [absorbBlocks] at same
      split at same
      next more =>
        have rest : (key.drop n).length ≤ fuel := by
          rw [List.length_drop]
          omega
        exact mixes.state _ (List.length_take_of_le more) (ih rest same)
      next short => exact mixes.lastState key (by omega) same

theorem absorbBlocks_differ {fuel : Nat} {key other : List α} (enough : key.length ≤ fuel)
    (differ : DifferInBlock n key other) (s : σ) :
    absorbBlocks n step last fuel key s ≠ absorbBlocks n step last fuel other s := by
  have length := differ.length
  induction fuel generalizing key other s with
  | zero => exact fun same => differ.differ (mixes.lastRest s key other (by omega) length same)
  | succ fuel ih =>
      intro same
      simp only [absorbBlocks, ← length] at same
      split at same
      next more =>
        have rest : (key.drop n).length ≤ fuel := by
          rw [List.length_drop]
          omega
        rcases differ.split pos with ⟨first, others⟩ | ⟨first, others⟩
        · rw [← others] at same
          have states := absorbBlocks_injective mixes pos rest same
          exact first (mixes.block s _ _ (List.length_take_of_le more) (List.length_take_of_le (length ▸ more)) states)
        · rw [← first] at same
          exact ih rest others _ others.length same
      next short => exact differ.differ (mixes.lastRest s key other (by omega) length same)

theorem absorb_differ {key other : List α} (differ : DifferInBlock n key other) (s : σ) :
    absorb n step last key s ≠ absorb n step last other s := by
  rw [absorb, absorb, ← differ.length]
  exact absorbBlocks_differ mixes pos (Nat.le_refl _) differ s

end

/-! ## Blocks of one element -/

theorem foldl_eq_absorb (step : σ → α → σ) (key : List α) (s : σ) :
    key.foldl step s = absorb 1 (fun s block => block.foldl step s) (fun s _ => s) key s := by
  unfold absorb
  induction key generalizing s with
  | nil => rfl
  | cons a rest ih => exact ih (step s a)

theorem foldl_differ {step : σ → α → σ} (state : ∀ a, Function.Injective fun s => step s a)
    (letter : ∀ s, Function.Injective (step s)) {key other : List α} (differ : DifferInBlock 1 key other) (s : σ) :
    key.foldl step s ≠ other.foldl step s := by
  rw [foldl_eq_absorb, foldl_eq_absorb]
  refine absorb_differ ⟨?_, ?_, fun _ _ => Function.injective_id, ?_⟩ Nat.one_pos differ s
  · intro block one
    obtain ⟨a, rfl⟩ := List.length_eq_one_iff.mp one
    exact state a
  · intro s left right one other same
    obtain ⟨a, rfl⟩ := List.length_eq_one_iff.mp one
    obtain ⟨b, rfl⟩ := List.length_eq_one_iff.mp other
    rw [letter s same]
  · intro s left right short same _
    have empty : right.length = 0 := by omega
    rw [List.length_eq_zero_iff.mp (Nat.lt_one_iff.mp short), List.length_eq_zero_iff.mp empty]

end SampleFs.Lib

import Mathlib.Data.List.Basic
import Mathlib.Data.List.Nodup
import Mathlib.Algebra.BigOperators.Group.Finset.Basic
import Mathlib.Algebra.Order.BigOperators.Group.Finset
import Mathlib.Tactic.Common
import SampleFs.Lib.Exec

/-!
# Searching a linked chain

A search along a chain stops at the first element that matches and remembers what it passed, which is
all an unlinking needs: the chain without the element is `before ++ after`.
-/

namespace SampleFs.Lib.Chain
variable {α : Type}

structure Found (α : Type) where
  before : List α
  here : α
  after : List α
deriving DecidableEq, Repr

def search (matching : α → Bool) : List α → Option (Found α)
  | [] => none
  | a :: rest =>
      if matching a then some ⟨[], a, rest⟩
      else (search matching rest).map fun f => ⟨a :: f.before, f.here, f.after⟩

theorem search_eq_none {matching : α → Bool} {chain : List α} :
    search matching chain = none ↔ ∀ a ∈ chain, matching a = false := by
  induction chain with
  | nil => simp [search]
  | cons a rest ih =>
      cases here : matching a <;> simp [search, here, ih]

theorem search_eq_some {matching : α → Bool} {chain : List α} {f : Found α} :
    search matching chain = some f ↔
      chain = f.before ++ f.here :: f.after ∧ matching f.here = true ∧
        ∀ a ∈ f.before, matching a = false := by
  induction chain generalizing f with
  | nil => simp [search]
  | cons a rest ih =>
      obtain ⟨before, x, after⟩ := f
      cases here : matching a with
      | true =>
          constructor
          · intro found
            simp only [search, here, if_true, Option.some.injEq, Found.mk.injEq] at found
            obtain ⟨rfl, rfl, rfl⟩ := found
            simp [here]
          · rintro ⟨split, _, misses⟩
            cases before with
            | nil =>
                obtain ⟨rfl, rfl⟩ := List.cons.inj split
                simp [search, here]
            | cons b before =>
                obtain ⟨rfl, _⟩ := List.cons.inj split
                simp [misses a (by simp)] at here
      | false =>
          simp only [search, here, Option.map_eq_some_iff, Bool.false_eq_true, if_false]
          constructor
          · rintro ⟨g, found, equal⟩
            obtain ⟨split, matched, misses⟩ := ih.mp found
            simp only [Found.mk.injEq] at equal
            obtain ⟨rfl, rfl, rfl⟩ := equal
            refine ⟨by simp [split], matched, ?_⟩
            rintro b (member | ⟨_, member⟩)
            · exact here
            · exact misses b member
          · rintro ⟨split, matched, misses⟩
            cases before with
            | nil =>
                obtain ⟨rfl, _⟩ := List.cons.inj split
                simp [here] at matched
            | cons b before =>
                obtain ⟨rfl, tail⟩ := List.cons.inj split
                refine ⟨⟨before, x, after⟩, ih.mpr ⟨tail, matched, ?_⟩, rfl⟩
                exact fun c member => misses c (by simp [member])

theorem search_map {β : Type} (matching : β → Bool) (f : α → β) (chain : List α) :
    search matching (chain.map f) = (search (matching ∘ f) chain).map fun found =>
      ⟨found.before.map f, f found.here, found.after.map f⟩ := by
  induction chain with
  | nil => rfl
  | cons a rest ih =>
      cases here : matching (f a) with
      | true => simp [search, here]
      | false => simp [search, here, ih, Function.comp_def]

/-- A loop along a chain that leaves at the first match, or behind the last element. `state` is what it
carries when it has passed `before` and stands at an element. -/
theorem returns_scan {ε σ ρ : Type} (body : σ → Exec ε (Pass σ ρ)) (matching : α → Bool)
    (state : List α → α → σ) (hit : List α → α → ρ) (miss : ρ) {chain : List α}
    (pass : ∀ before x after, chain = before ++ x :: after →
      body (state before x) = .ok (if matching x then .done (hit before x)
        else match after with
          | [] => .done miss
          | next :: _ => .again (state (before ++ [x]) next)))
    {before : List α} {x : α} {after : List α} (split : chain = before ++ x :: after) :
    Exec.Returns (fun fuel => Exec.loop body fuel (state before x))
      (match search matching (x :: after) with
        | some f => hit (before ++ f.before) f.here
        | none => miss) := by
  induction after generalizing before x with
  | nil =>
      have goes := pass before x [] split
      cases here : matching x with
      | true => simpa [search, here] using Exec.returns_done (by simpa [here] using goes)
      | false => simpa [search, here] using Exec.returns_done (by simpa [here] using goes)
  | cons next after ih =>
      have goes := pass before x (next :: after) split
      cases here : matching x with
      | true => simpa [search, here] using Exec.returns_done (by simpa [here] using goes)
      | false =>
          have rest := ih (show chain = (before ++ [x]) ++ next :: after by simp [split])
          have whole := Exec.returns_again (by simpa [here] using goes) rest
          rw [search, if_neg (by simp [here])]
          cases found : search matching (next :: after) with
          | none => simpa [found] using whole
          | some f => simpa [found] using whole

theorem Found.mem_before {matching : α → Prop} {chain : List α} {f : Found α}
    (found : chain = f.before ++ f.here :: f.after) (misses : ∀ a ∈ f.before, ¬ matching a)
    {before after : List α} {x : α} (split : chain = before ++ x :: after) (matches' : matching x)
    (other : f.here ≠ x) : f.here ∈ before := by
  rw [found] at split
  rcases List.append_eq_append_iff.mp split with ⟨gap, rfl, tail⟩ | ⟨gap, longer, tail⟩
  · cases gap with
    | nil => exact absurd (List.cons.inj tail).1 other
    | cons first gap =>
        obtain ⟨rfl, _⟩ := List.cons.inj tail
        simp
  · cases gap with
    | nil => exact absurd (List.cons.inj tail).1.symm other
    | cons first gap =>
        obtain ⟨rfl, _⟩ := List.cons.inj tail
        exact absurd matches' (misses x (by simp [longer]))

def total (size : Nat) (chains : Nat → List α) : Nat :=
  ∑ i ∈ Finset.range size, (chains i).length

theorem length_le_total {size i : Nat} (chains : Nat → List α) (inside : i < size) :
    (chains i).length ≤ total size chains :=
  Finset.single_le_sum (f := fun j => (chains j).length) (fun _ _ => Nat.zero_le _)
    (Finset.mem_range.mpr inside)

theorem sum_update {M : Type} [AddCommMonoid M] (weight : List α → M) {size i : Nat}
    (chains : Nat → List α) (inside : i < size) (chain : List α) :
    ∑ j ∈ Finset.range size, weight (Function.update chains i chain j) + weight (chains i) =
      ∑ j ∈ Finset.range size, weight (chains j) + weight chain := by
  have member := Finset.mem_range.mpr inside
  have others : ∑ j ∈ (Finset.range size).erase i, weight (Function.update chains i chain j) =
      ∑ j ∈ (Finset.range size).erase i, weight (chains j) := by
    apply Finset.sum_congr rfl
    intro j away
    rw [Function.update_of_ne (Finset.ne_of_mem_erase away)]
  rw [← Finset.add_sum_erase _ _ member, ← Finset.add_sum_erase _ (fun j => weight (chains j)) member,
    others, Function.update_self, add_comm (weight chain), add_right_comm, add_comm (weight (chains i)),
    add_right_comm]

theorem total_update {size i : Nat} (chains : Nat → List α) (inside : i < size) (chain : List α) :
    total size (Function.update chains i chain) + (chains i).length =
      total size chains + chain.length :=
  sum_update List.length chains inside chain

end SampleFs.Lib.Chain

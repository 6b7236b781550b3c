import Mathlib.Data.Finset.Card
import Mathlib.Data.Finset.Range
import Mathlib.Tactic.Common

/-!
# Following a partial function

A walk that goes from state to state until there is no next one. Over finitely many states it ends
exactly when it comes to no state twice.
-/

namespace SampleFs.Lib

variable {σ : Type}

def orbit (next : σ → Option σ) (start : Option σ) : Nat → Option σ
  | 0 => start
  | k + 1 => (orbit next start k).bind next

theorem orbit_add (next : σ → Option σ) (start : Option σ) (m n : Nat) :
    orbit next start (m + n) = orbit next (orbit next start m) n := by
  induction n with
  | zero => rfl
  | succ n ih => rw [← Nat.add_assoc, orbit, ih, orbit]

theorem orbit_none (next : σ → Option σ) (k : Nat) : orbit next none k = none := by
  induction k with
  | zero => rfl
  | succ k ih => rw [orbit, ih, Option.bind_none]

theorem orbit_succ (next : σ → Option σ) (s : σ) (k : Nat) :
    orbit next (some s) (k + 1) = orbit next (next s) k := by
  rw [Nat.add_comm, orbit_add]
  rfl

section
variable {next : σ → Option σ} {start : Option σ}

theorem orbit_ended {k later : Nat} (le : k ≤ later) (ended : orbit next start k = none) :
    orbit next start later = none := by
  obtain ⟨more, rfl⟩ := Nat.exists_eq_add_of_le le
  rw [orbit_add, ended, orbit_none]

def NeverTwice (next : σ → Option σ) (start : Option σ) : Prop :=
  ∀ i j s, orbit next start i = some s → orbit next start j = some s → i = j

theorem orbit_returns {i period : Nat} {s : σ} (here : orbit next start i = some s)
    (again : orbit next start (i + period) = some s) (rounds : Nat) :
    orbit next start (i + rounds * period) = some s := by
  induction rounds with
  | zero => rwa [Nat.zero_mul, Nat.add_zero]
  | succ rounds ih =>
      rw [orbit_add, here] at again
      rw [Nat.succ_mul, ← Nat.add_assoc, orbit_add, ih, again]

theorem neverTwice_of_ended {last : Nat} (ended : orbit next start last = none) : NeverTwice next start := by
  have apart (i j : Nat) (s : σ) (here : orbit next start i = some s) (again : orbit next start j = some s) :
      ¬ i < j := by
    intro less
    obtain ⟨period, rfl⟩ := Nat.exists_eq_add_of_lt less
    rw [Nat.add_assoc] at again
    have there := orbit_returns here again last
    have far : last ≤ i + last * (period + 1) := by
      rw [Nat.mul_succ]
      omega
    rw [orbit_ended far ended] at there
    cases there
  intro i j s here again
  exact Nat.le_antisymm (Nat.not_lt.mp (apart j i s again here)) (Nat.not_lt.mp (apart i j s here again))

theorem ended_of_neverTwice {start : Option Nat} {next : Nat → Option Nat} {bound : Nat}
    (bounded : ∀ k s, orbit next start k = some s → s < bound) (once : NeverTwice next start) :
    orbit next start bound = none := by
  by_contra goes
  have alive (k : Nat) (le : k ≤ bound) : ∃ s, orbit next start k = some s :=
    Option.ne_none_iff_exists'.mp fun ended => goes (orbit_ended le ended)
  have inside : Set.MapsTo (fun k => (orbit next start k).getD 0) (Finset.range (bound + 1) : Finset Nat)
      (Finset.range bound : Finset Nat) := by
    intro k member
    obtain ⟨s, here⟩ := alive k (Nat.le_of_lt_succ (Finset.mem_range.mp member))
    simpa [here] using bounded k s here
  obtain ⟨i, memberI, j, memberJ, different, same⟩ :=
    Finset.exists_ne_map_eq_of_card_lt_of_maps_to (by simp) inside
  obtain ⟨s, here⟩ := alive i (Nat.le_of_lt_succ (Finset.mem_range.mp memberI))
  obtain ⟨t, there⟩ := alive j (Nat.le_of_lt_succ (Finset.mem_range.mp memberJ))
  simp only [here, there, Option.getD_some] at same
  exact different (once i j s here (same ▸ there))

end

end SampleFs.Lib

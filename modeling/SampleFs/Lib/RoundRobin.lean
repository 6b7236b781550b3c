import Mathlib.Algebra.BigOperators.Group.Finset.Basic
import Mathlib.Algebra.BigOperators.Group.Finset.Piecewise
import Mathlib.Tactic.Common

/-!
# Dealing in turn

What each of `n` receivers holds when `dealt` items were given out one by one, each to the next.
-/

namespace SampleFs.Lib

def share (n dealt i : Nat) : Nat := dealt / n + if i < dealt % n then 1 else 0

theorem share_zero (n i : Nat) : share n 0 i = 0 := by
  simp [share]

theorem share_succ {n : Nat} (pos : 0 < n) (dealt : Nat) {i : Nat} (inside : i < n) :
    share n (dealt + 1) i = share n dealt i + if i = dealt % n then 1 else 0 := by
  have less := Nat.mod_lt dealt pos
  have whole := Nat.div_add_mod dealt n
  unfold share
  by_cases wraps : dealt % n + 1 = n
  · have next : dealt + 1 = n * (dealt / n + 1) := by
      rw [Nat.mul_add, Nat.mul_one]
      omega
    have quotient : (dealt + 1) / n = dealt / n + 1 := by
      rw [next, Nat.mul_div_cancel_left _ pos]
    have remainder : (dealt + 1) % n = 0 := by
      rw [next, Nat.mul_mod_right]
    rw [quotient, remainder]
    split_ifs <;> omega
  · have next : dealt + 1 = n * (dealt / n) + (dealt % n + 1) := by omega
    have small : (dealt % n + 1) / n = 0 := Nat.div_eq_of_lt (by omega)
    have quotient : (dealt + 1) / n = dealt / n := by
      rw [next, Nat.mul_add_div pos, small, Nat.add_zero]
    have remainder : (dealt + 1) % n = dealt % n + 1 := by
      rw [next, Nat.mul_add_mod, Nat.mod_eq_of_lt (by omega)]
    rw [quotient, remainder]
    split_ifs <;> omega

theorem share_near (n dealt i j : Nat) : share n dealt i ≤ share n dealt j + 1 := by
  unfold share
  split_ifs <;> omega

theorem sum_share {n : Nat} (pos : 0 < n) (dealt : Nat) : ∑ i ∈ Finset.range n, share n dealt i = dealt := by
  induction dealt with
  | zero => simp [share_zero]
  | succ dealt ih =>
      have each : ∀ i ∈ Finset.range n, share n (dealt + 1) i =
          share n dealt i + if i = dealt % n then 1 else 0 :=
        fun i member => share_succ pos dealt (Finset.mem_range.mp member)
      rw [Finset.sum_congr rfl each, Finset.sum_add_distrib, ih, Finset.sum_ite_eq',
        if_pos (Finset.mem_range.mpr (Nat.mod_lt _ pos))]

end SampleFs.Lib

import Mathlib.Tactic.Ring

/-!
# C integers

Machine words are natural numbers below a power of two. These are the conversions between the
unsigned words and the signed values the same bits stand for on a two's complement machine.
-/

namespace SampleFs.Lib

def toSigned (width value : Nat) : Int :=
  if value % 2 ^ width < 2 ^ (width - 1) then (value % 2 ^ width : Nat)
  else (value % 2 ^ width : Nat) - (2 ^ width : Nat)

def toUnsigned (width : Nat) (value : Int) : Nat :=
  (value % (2 ^ width : Nat)).toNat

theorem toSigned_small {width value : Nat} (small : value < 2 ^ (width - 1)) :
    toSigned width value = value := by
  have le : 2 ^ (width - 1) ≤ 2 ^ width := Nat.pow_le_pow_right (by decide) (Nat.sub_le _ _)
  rw [toSigned, Nat.mod_eq_of_lt (Nat.lt_of_lt_of_le small le), if_pos small]

theorem toSigned_inj {width a b : Nat} (some : 0 < width) (smallA : a < 2 ^ width)
    (smallB : b < 2 ^ width) : toSigned width a = toSigned width b ↔ a = b := by
  have half : 2 ^ width = 2 * 2 ^ (width - 1) := by
    rw [← Nat.pow_succ', Nat.succ_eq_add_one, Nat.sub_add_cancel some]
  rw [toSigned, toSigned, Nat.mod_eq_of_lt smallA, Nat.mod_eq_of_lt smallB]
  split <;> split <;> omega

theorem toUnsigned_natCast {width value : Nat} (small : value < 2 ^ width) :
    toUnsigned width value = value := by
  rw [toUnsigned, ← Int.natCast_emod, Nat.mod_eq_of_lt small, Int.toNat_natCast]

end SampleFs.Lib

import Mathlib.Data.List.Basic
import Mathlib.Data.Nat.ModEq
import Mathlib.Data.Nat.Prime.Basic
import Mathlib.Logic.Function.Basic

/-!
# Reversible operations on words

Words of any width. The operations that hashes are made of, and why none of them loses anything.
-/

namespace SampleFs.Lib
variable {w : Nat}

/-- The word whose bytes these are, the first one lowest. -/
def bytesWord : List UInt8 → BitVec w
  | [] => 0#w
  | c :: rest => (bytesWord rest <<< 8) ^^^ c.toBitVec.setWidth w

def rotl (x : BitVec w) (r : Nat) : BitVec w := (x <<< r) ||| (x >>> (w - r))

theorem getLsbD_bytesWord {bytes : List UInt8} (i : Nat) (fits : i < w) :
    (bytesWord bytes : BitVec w).getLsbD i = (bytes.getD (i / 8) 0).toBitVec.getLsbD (i % 8) := by
  induction bytes generalizing i with
  | nil => simp [bytesWord]
  | cons c rest ih =>
      rw [bytesWord, BitVec.getLsbD_xor, BitVec.getLsbD_shiftLeft, BitVec.getLsbD_setWidth]
      by_cases low : i < 8
      · have first : i / 8 = 0 := Nat.div_eq_of_lt low
        simp [fits, low, first, Nat.mod_eq_of_lt low]
      · have place : i / 8 = (i - 8) / 8 + 1 := by omega
        have byte : i % 8 = (i - 8) % 8 := by omega
        rw [place, byte, List.getD_cons_succ, ← ih (i - 8) (by omega), BitVec.getLsbD_of_ge c.toBitVec i (by omega)]
        simp [fits, low]

theorem bytesWord_injective {left right : List UInt8} (same : left.length = right.length) (fits : 8 * left.length ≤ w)
    (words : (bytesWord left : BitVec w) = bytesWord right) : left = right := by
  apply List.ext_getElem same
  intro k inLeft inRight
  apply UInt8.toBitVec_inj.mp
  apply BitVec.eq_of_getLsbD_eq
  intro j less
  have bits : (bytesWord left : BitVec w).getLsbD (8 * k + j) = (bytesWord right : BitVec w).getLsbD (8 * k + j) := by
    rw [words]
  rw [getLsbD_bytesWord _ (by omega), getLsbD_bytesWord _ (by omega)] at bits
  have place : (8 * k + j) / 8 = k := by omega
  have bit : (8 * k + j) % 8 = j := by omega
  simpa [place, bit, inLeft, inRight] using bits

theorem mul_unit_injective {factor inverse : BitVec w} (unit : factor * inverse = 1#w) :
    Function.Injective fun x : BitVec w => x * factor := by
  intro x y equal
  calc
    x = x * factor * inverse := by rw [BitVec.mul_assoc, unit, BitVec.mul_one]
    _ = y * factor * inverse := congrArg (· * inverse) equal
    _ = y := by rw [BitVec.mul_assoc, unit, BitVec.mul_one]

theorem xorShift_injective {n : Nat} (pos : 0 < n) : Function.Injective fun x : BitVec w => x ^^^ (x >>> n) := by
  intro x y equal
  have shifted : (x ^^^ y) >>> n = x ^^^ y := by
    have cancelled : (x ^^^ (x >>> n)) ^^^ (y ^^^ (y >>> n)) = 0#w := BitVec.xor_eq_zero_iff.mpr equal
    rw [BitVec.ushiftRight_xor_distrib, ← BitVec.xor_eq_zero_iff, ← cancelled]
    ac_rfl
  -- a word that is a proper part of itself is zero
  have part : (x ^^^ y).toNat = (x ^^^ y).toNat / 2 ^ n := by
    nth_rewrite 1 [← shifted]
    rw [BitVec.toNat_ushiftRight, Nat.shiftRight_eq_div_pow]
  have zero : (x ^^^ y).toNat = 0 := by
    by_contra some
    have smaller : (x ^^^ y).toNat / 2 ^ n < (x ^^^ y).toNat :=
      Nat.div_lt_self (Nat.pos_of_ne_zero some) (Nat.one_lt_two_pow (by omega))
    omega
  exact BitVec.xor_eq_zero_iff.mp (BitVec.eq_of_toNat_eq zero)

-- Adding a shifted copy multiplies by an odd number.
theorem addShift_injective {n : Nat} (pos : 0 < n) : Function.Injective fun x : BitVec w => x + (x <<< n) := by
  have times (x : BitVec w) : (x + (x <<< n)).toNat % 2 ^ w = x.toNat * (2 ^ n + 1) % 2 ^ w := by
    rw [BitVec.toNat_add, BitVec.toNat_shiftLeft, Nat.shiftLeft_eq, Nat.mod_mod, Nat.add_mod_mod, Nat.mul_succ, Nat.add_comm]
  have odd : Nat.gcd (2 ^ w) (2 ^ n + 1) = 1 := by
    apply Nat.Coprime.pow_left
    rw [Nat.coprime_two_left, Nat.odd_iff]
    have even : 2 ^ n % 2 = 0 := Nat.mod_eq_zero_of_dvd (dvd_pow_self 2 (Nat.ne_of_gt pos))
    omega
  intro x y equal
  have multiples : x.toNat * (2 ^ n + 1) ≡ y.toNat * (2 ^ n + 1) [MOD 2 ^ w] := by
    rw [Nat.ModEq, ← times, ← times, show x + (x <<< n) = y + (y <<< n) from equal]
  have same := Nat.ModEq.cancel_right_of_coprime odd multiples
  exact BitVec.eq_of_toNat_eq (Nat.ModEq.eq_of_lt_of_lt same x.isLt y.isLt)

theorem getLsbD_rotl (x : BitVec w) {r i : Nat} (le : r ≤ w) (fits : i < w) :
    (rotl x r).getLsbD ((i + r) % w) = x.getLsbD i := by
  rw [rotl, BitVec.getLsbD_or, BitVec.getLsbD_shiftLeft, BitVec.getLsbD_ushiftRight]
  by_cases around : i + r < w
  · have out : x.getLsbD (w - r + (i + r)) = false := BitVec.getLsbD_of_ge _ _ (by omega)
    rw [Nat.mod_eq_of_lt around, out]
    simp [around]
  · have back : (i + r) % w = i + r - w := by
      rw [Nat.mod_eq_sub_mod (by omega), Nat.mod_eq_of_lt (by omega)]
    have place : w - r + (i + r - w) = i := by omega
    have below : i + r - w < r := by omega
    rw [back, place]
    simp [below]

theorem rotl_injective {r : Nat} (le : r ≤ w) : Function.Injective fun x : BitVec w => rotl x r := by
  intro x y equal
  apply BitVec.eq_of_getLsbD_eq
  intro i less
  have words : rotl x r = rotl y r := equal
  rw [← getLsbD_rotl x le less, ← getLsbD_rotl y le less, words]

theorem injective_of_toBitVec {f : UInt32 → UInt32} {g : BitVec 32 → BitVec 32}
    (steps : ∀ x, (f x).toBitVec = g x.toBitVec) (injective : Function.Injective g) : Function.Injective f := by
  intro x y equal
  apply UInt32.toBitVec_inj.mp
  apply injective
  rw [← steps, ← steps, equal]

end SampleFs.Lib

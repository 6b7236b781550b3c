import Mathlib.Data.Nat.ModEq
import Mathlib.Tactic.Ring

/-!
# Positional digits

The digits of a number in a base, padded to a fixed count, the most significant first.
-/

namespace SampleFs.Lib

def radixDigits (base : Nat) : (count n : Nat) → List Nat
  | 0, _ => []
  | count + 1, n => radixDigits base count (n / base) ++ [n % base]

def radixValue (base : Nat) (digits : List Nat) : Nat :=
  digits.foldl (fun value digit => value * base + digit) 0

theorem radixDigits_length (base count n : Nat) : (radixDigits base count n).length = count := by
  induction count generalizing n with
  | zero => rfl
  | succ count ih => rw [radixDigits, List.length_append, ih, List.length_singleton]

theorem radixDigits_lt {base : Nat} (pos : 0 < base) (count n : Nat) :
    ∀ digit ∈ radixDigits base count n, digit < base := by
  induction count generalizing n with
  | zero =>
      intro digit member
      cases member
  | succ count ih =>
      intro digit member
      rw [radixDigits, List.mem_append, List.mem_singleton] at member
      rcases member with upper | rfl
      · exact ih (n / base) digit upper
      · exact Nat.mod_lt n pos

theorem radixValue_radixDigits (base count n : Nat) :
    radixValue base (radixDigits base count n) = n % base ^ count := by
  induction count generalizing n with
  | zero => simp [radixDigits, radixValue, Nat.mod_one]
  | succ count ih =>
      have upper := ih (n / base)
      unfold radixValue at upper ⊢
      rw [radixDigits, List.foldl_append, upper, pow_succ', Nat.mod_mul, List.foldl_cons, List.foldl_nil]
      ring

theorem radixDigits_injective {base count n m : Nat} (less : n < base ^ count) (less' : m < base ^ count)
    (same : radixDigits base count n = radixDigits base count m) : n = m := by
  have values := congrArg (radixValue base) same
  rwa [radixValue_radixDigits, radixValue_radixDigits, Nat.mod_eq_of_lt less, Nat.mod_eq_of_lt less'] at values

end SampleFs.Lib

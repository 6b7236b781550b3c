import Mathlib.Data.Nat.Log
import Mathlib.Tactic.Ring
import Mathlib.Tactic.Linarith

/-!
# Binary64 arithmetic on numbers of at least one

Values are fractions `num / den`. Every operation rounds its exact result to 53 significant bits, to
nearest with ties to even. Numbers below one would need a smaller exponent and do not occur.
-/

namespace SampleFs.Lib.Binary64

structure Value where
  num : Nat
  den : Nat
deriving DecidableEq, Repr

def roundHalfEven (num den : Nat) : Nat :=
  let quotient := num / den
  let twice := 2 * (num % den)
  if twice < den then quotient
  else if den < twice then quotient + 1
  else if quotient % 2 = 0 then quotient else quotient + 1

def round (num den : Nat) : Value :=
  let exponent := Nat.log2 (num / den)
  if exponent ≤ 52 then
    ⟨roundHalfEven (num * 2 ^ (52 - exponent)) den, 2 ^ (52 - exponent)⟩
  else
    ⟨roundHalfEven num (den * 2 ^ (exponent - 52)) * 2 ^ (exponent - 52), 1⟩

def ofNat (n : Nat) : Value := round n 1

def div (x y : Value) : Value := round (x.num * y.den) (x.den * y.num)

def mul (x y : Value) : Value := round (x.num * y.num) (x.den * y.den)

def trunc (x : Value) : Nat := x.num / x.den

def AtLeast (n : Nat) (x : Value) : Prop := 0 < x.den ∧ n * x.den ≤ x.num

theorem div_le_roundHalfEven (num den : Nat) : num / den ≤ roundHalfEven num den := by
  unfold roundHalfEven
  dsimp only
  split_ifs <;> omega

theorem round_atLeast {n num den : Nat} (small : n ≤ 2 ^ 53) (pos : 0 < den)
    (le : n * den ≤ num) : AtLeast n (round num den) := by
  unfold round
  dsimp only
  set e := Nat.log2 (num / den) with he
  split_ifs with exact
  · refine ⟨by positivity, ?_⟩
    refine le_trans ?_ (div_le_roundHalfEven _ _)
    rw [Nat.le_div_iff_mul_le pos]
    calc n * 2 ^ (52 - e) * den = n * den * 2 ^ (52 - e) := by ring
      _ ≤ num * 2 ^ (52 - e) := Nat.mul_le_mul_right _ le
  · have nonzero : num / den ≠ 0 := by
      intro zero
      simp [he, zero] at exact
    have large : 2 ^ e * den ≤ num :=
      (Nat.mul_le_mul_right _ (Nat.log2_self_le nonzero)).trans (Nat.div_mul_le_self _ _)
    have split : 2 ^ e = 2 ^ 52 * 2 ^ (e - 52) := by
      rw [← pow_add]
      congr 1
      omega
    have mantissa : 2 ^ 52 ≤ num / (den * 2 ^ (e - 52)) := by
      rw [Nat.le_div_iff_mul_le (by positivity)]
      calc 2 ^ 52 * (den * 2 ^ (e - 52)) = 2 ^ e * den := by rw [split]; ring
        _ ≤ num := large
    refine ⟨by norm_num, ?_⟩
    have wide : 2 ^ 53 ≤ 2 ^ e := Nat.pow_le_pow_right (by norm_num) (by omega)
    calc n * 1 ≤ 2 ^ e := by omega
      _ = 2 ^ 52 * 2 ^ (e - 52) := split
      _ ≤ _ := Nat.mul_le_mul_right _ (mantissa.trans (div_le_roundHalfEven _ _))

theorem ofNat_atLeast {n : Nat} (small : n ≤ 2 ^ 53) : AtLeast n (ofNat n) :=
  round_atLeast small (by norm_num) (by omega)

theorem ofNat_exact {n : Nat} (small : n < 2 ^ 53) :
    0 < (ofNat n).den ∧ (ofNat n).num = n * (ofNat n).den := by
  have exponent : Nat.log2 (n / 1) ≤ 52 := by
    rw [Nat.div_one]
    by_cases zero : n = 0
    · simp [zero]
    · exact Nat.le_of_lt_succ ((Nat.log2_lt zero).mpr small)
  unfold ofNat round
  simp only [exponent, if_true]
  refine ⟨by positivity, ?_⟩
  simp [roundHalfEven, Nat.mod_one]

theorem div_atLeast_one {m n : Nat} (le : m ≤ n) (pos : 0 < m) (small : n < 2 ^ 53) :
    AtLeast 1 (div (ofNat n) (ofNat m)) := by
  obtain ⟨denN, numN⟩ := ofNat_exact small
  obtain ⟨denM, numM⟩ := ofNat_exact (le.trans_lt small)
  refine round_atLeast (by norm_num) ?_ ?_
  · rw [numM]
    positivity
  · calc 1 * ((ofNat n).den * (ofNat m).num) = m * (ofNat n).den * (ofNat m).den := by rw [numM]; ring
      _ ≤ n * (ofNat n).den * (ofNat m).den := Nat.mul_le_mul_right _ (Nat.mul_le_mul_right _ le)
      _ = (ofNat n).num * (ofNat m).den := by rw [numN]

theorem mul_atLeast {n : Nat} (small : n ≤ 2 ^ 53) {x y : Value} (hx : AtLeast n x)
    (hy : AtLeast 1 y) : AtLeast n (mul x y) := by
  refine round_atLeast small (Nat.mul_pos hx.1 hy.1) ?_
  calc n * (x.den * y.den) = n * x.den * (1 * y.den) := by ring
    _ ≤ x.num * y.num := Nat.mul_le_mul hx.2 hy.2

theorem le_trunc {n : Nat} {x : Value} (hx : AtLeast n x) : n ≤ trunc x :=
  (Nat.le_div_iff_mul_le hx.1).mpr hx.2

/-! ## Upper bounds -/

def AtMost (n : Nat) (x : Value) : Prop := 0 < x.den ∧ x.num ≤ n * x.den

theorem roundHalfEven_le {n num den : Nat} (pos : 0 < den) (le : num ≤ n * den) : roundHalfEven num den ≤ n := by
  have floor : num / den ≤ n := Nat.div_le_of_le_mul (by rwa [Nat.mul_comm])
  have above (rest : 0 < num % den) : num / den + 1 ≤ n := by
    apply (Nat.div_lt_iff_lt_mul pos).mpr
    refine lt_of_le_of_ne le ?_
    rintro rfl
    rw [Nat.mul_mod_left] at rest
    exact absurd rest (Nat.lt_irrefl 0)
  unfold roundHalfEven
  dsimp only
  split_ifs
  · exact floor
  · exact above (by omega)
  · exact floor
  · exact above (by omega)

-- A power of two is a value of the format, so no rounding goes past it.
theorem round_atMost {k num den : Nat} (pos : 0 < den) (le : num ≤ 2 ^ k * den) : AtMost (2 ^ k) (round num den) := by
  unfold round
  dsimp only
  set e := Nat.log2 (num / den) with he
  split_ifs with exact
  · refine ⟨by positivity, roundHalfEven_le pos ?_⟩
    calc num * 2 ^ (52 - e) ≤ 2 ^ k * den * 2 ^ (52 - e) := Nat.mul_le_mul_right _ le
      _ = 2 ^ k * 2 ^ (52 - e) * den := by ring
  · have nonzero : num / den ≠ 0 := by
      intro zero
      simp [he, zero] at exact
    have below : 2 ^ e ≤ 2 ^ k :=
      (Nat.log2_self_le nonzero).trans (Nat.div_le_of_le_mul (by rwa [Nat.mul_comm]))
    have exponent : e ≤ k := (Nat.pow_le_pow_iff_right (by norm_num)).mp below
    have split : 2 ^ k = 2 ^ (k - (e - 52)) * 2 ^ (e - 52) := by
      rw [← pow_add]
      congr 1
      omega
    refine ⟨by norm_num, ?_⟩
    rw [Nat.mul_one]
    refine le_of_le_of_eq (Nat.mul_le_mul_right _ (roundHalfEven_le (by positivity) ?_)) split.symm
    calc num ≤ 2 ^ k * den := le
      _ = 2 ^ (k - (e - 52)) * (den * 2 ^ (e - 52)) := by rw [split]; ring

theorem div_atMost {k : Nat} {x y : Value} (hx : AtMost (2 ^ k) x) (hy : AtLeast 1 y) : AtMost (2 ^ k) (div x y) := by
  have whole : y.den ≤ y.num := by simpa using hy.2
  refine round_atMost (Nat.mul_pos hx.1 (hy.1.trans_le whole)) ?_
  calc x.num * y.den ≤ 2 ^ k * x.den * y.num := Nat.mul_le_mul hx.2 whole
    _ = 2 ^ k * (x.den * y.num) := by ring

theorem mul_atMost {k m : Nat} {x y : Value} (hx : AtMost (2 ^ k) x) (hy : AtMost (2 ^ m) y) :
    AtMost (2 ^ (k + m)) (mul x y) := by
  refine round_atMost (Nat.mul_pos hx.1 hy.1) ?_
  calc x.num * y.num ≤ 2 ^ k * x.den * (2 ^ m * y.den) := Nat.mul_le_mul hx.2 hy.2
    _ = 2 ^ (k + m) * (x.den * y.den) := by rw [pow_add]; ring

theorem ofNat_atMost {k n : Nat} (le : n ≤ 2 ^ k) : AtMost (2 ^ k) (ofNat n) :=
  round_atMost (by norm_num) (by omega)

theorem trunc_le {n : Nat} {x : Value} (hx : AtMost n x) : trunc x ≤ n :=
  Nat.div_le_of_le_mul (by rw [Nat.mul_comm]; exact hx.2)

end SampleFs.Lib.Binary64

import SampleFs.Lib.Binary64

/-!
# Jump consistent hashing

`c_hashmap_jump_consistent`, `dict_jump_consistent` and `c_hash_jump_consistent` are one loop over
different integer types. `b` is the bucket the key sits in so far and `j` the next one it jumps to.
-/

namespace SampleFs.Base
open Lib

-- `(int64_t)((b + 1) * ((double)(1LL << 31) / (double)((key >> 33) + 1)))`
def jumpStep (b key : Nat) : Nat :=
  Binary64.trunc (Binary64.mul (Binary64.ofNat (b + 1))
    (Binary64.div (Binary64.ofNat (2 ^ 31)) (Binary64.ofNat (key / 2 ^ 33 + 1))))

def jumpKey (key : Nat) : Nat := (key * 2862933555777941757 + 1) % 2 ^ 64

/-- Each round raises `j` (`lt_jumpStep`), so `numBuckets` rounds leave through the loop test. -/
def jumpLoop (step : Nat → Nat → Nat) (numBuckets : Nat) : Nat → Nat → Int → Nat → Int
  | 0, _, b, _ => b
  | rounds + 1, key, b, j =>
      if j < numBuckets then jumpLoop step numBuckets rounds (jumpKey key) j (step j (jumpKey key))
      else b

def jumpConsistent (step : Nat → Nat → Nat) (key numBuckets : Nat) : Nat :=
  -- `(b < 0) ? (~b + 1) : b`
  (jumpLoop step numBuckets numBuckets key (-1) 0).natAbs

-- `c_hash_jump_consistent`: the count is an `int32_t`, and a negative one ends the loop at once
def cHashJumpConsistent (key : Nat) (numBuckets : Int) : Nat := jumpConsistent jumpStep key numBuckets.toNat

theorem jumpKey_lt (key : Nat) : jumpKey key < 2 ^ 64 := Nat.mod_lt _ (by norm_num)

theorem lt_jumpStep (b key : Nat) (small : b < 2 ^ 53) (bounded : key < 2 ^ 64) :
    b < jumpStep b key := by
  have quotient : Binary64.AtLeast 1
      (Binary64.div (Binary64.ofNat (2 ^ 31)) (Binary64.ofNat (key / 2 ^ 33 + 1))) :=
    Binary64.div_atLeast_one (by omega) (by omega) (by norm_num)
  exact Binary64.le_trunc
    (Binary64.mul_atLeast (by omega) (Binary64.ofNat_atLeast (by omega)) quotient)

theorem jumpStep_le {b : Nat} (small : b < 2 ^ 31) (key : Nat) : jumpStep b key ≤ 2 ^ 62 := by
  have divisor : Binary64.AtLeast 1 (Binary64.ofNat (key / 2 ^ 33 + 1)) :=
    Binary64.round_atLeast (by norm_num) (by norm_num) (by omega)
  have quotient := Binary64.div_atMost (Binary64.ofNat_atMost (Nat.le_refl (2 ^ 31))) divisor
  exact Binary64.trunc_le (Binary64.mul_atMost (Binary64.ofNat_atMost (k := 31) small) quotient)

def Raises (step : Nat → Nat → Nat) (numBuckets : Nat) : Prop :=
  ∀ b key, b < numBuckets → key < 2 ^ 64 → b < step b key

theorem jumpStep_raises {numBuckets : Nat} (small : numBuckets ≤ 2 ^ 53) : Raises jumpStep numBuckets :=
  fun b key less bounded => lt_jumpStep b key (less.trans_le small) bounded

theorem Raises.mono {step : Nat → Nat → Nat} {n m : Nat} (raises : Raises step m) (le : n ≤ m) :
    Raises step n :=
  fun b key less bounded => raises b key (less.trans_le le) bounded

theorem jumpLoop_settled {step : Nat → Nat → Nat} {numBuckets : Nat} (raises : Raises step numBuckets)
    (rounds key : Nat) (b : Int) (j : Nat) (enough : numBuckets ≤ j + rounds) (more : Nat) :
    jumpLoop step numBuckets (rounds + more) key b j = jumpLoop step numBuckets rounds key b j := by
  induction rounds generalizing key b j with
  | zero =>
      cases more with
      | zero => rfl
      | succ more => simp [jumpLoop, show ¬ j < numBuckets by omega]
  | succ rounds ih =>
      rw [Nat.succ_add]
      unfold jumpLoop
      split_ifs with inside
      · have raised := raises j (jumpKey key) inside (jumpKey_lt key)
        exact ih _ _ _ (by omega)
      · rfl

theorem le_jumpLoop {step : Nat → Nat → Nat} {numBuckets : Nat} (raises : Raises step numBuckets)
    (rounds key : Nat) (b : Int) (j : Nat) (behind : b ≤ j) : b ≤ jumpLoop step numBuckets rounds key b j := by
  induction rounds generalizing key b j with
  | zero => exact le_refl b
  | succ rounds ih =>
      unfold jumpLoop
      split_ifs with inside
      · have raised := raises j (jumpKey key) inside (jumpKey_lt key)
        have later := ih (jumpKey key) j (step j (jumpKey key)) (by omega)
        omega
      · exact le_refl b

-- The two loops visit the same buckets until the smaller bound ends one of them, and every later
-- bucket of the other is at least that bound.
theorem jumpLoop_grow {step : Nat → Nat → Nat} {n m : Nat} (raises : Raises step m) (le : n ≤ m)
    (rounds key : Nat) (b : Int) (j : Nat) :
    jumpLoop step m rounds key b j = jumpLoop step n rounds key b j ∨
      (n : Int) ≤ jumpLoop step m rounds key b j := by
  induction rounds generalizing key b j with
  | zero => exact .inl rfl
  | succ rounds ih =>
      unfold jumpLoop
      by_cases inside : j < n
      · rw [if_pos inside, if_pos (inside.trans_le le)]
        exact ih _ _ _
      · rw [if_neg inside]
        split_ifs with further
        · have raised := raises j (jumpKey key) further (jumpKey_lt key)
          have later := le_jumpLoop raises rounds (jumpKey key) j (step j (jumpKey key)) (by omega)
          exact .inr (by omega)
        · exact .inl rfl

theorem jumpLoop_lt (step : Nat → Nat → Nat) (numBuckets rounds key : Nat) (b : Int) (j : Nat)
    (below : b < numBuckets) (nonneg : 0 ≤ b) :
    0 ≤ jumpLoop step numBuckets rounds key b j ∧ jumpLoop step numBuckets rounds key b j < numBuckets := by
  induction rounds generalizing key b j with
  | zero => exact ⟨nonneg, below⟩
  | succ rounds ih =>
      unfold jumpLoop
      split_ifs with more
      · exact ih _ _ _ (by omega) (by omega)
      · exact ⟨nonneg, below⟩

theorem jumpLoop_range (step : Nat → Nat → Nat) (key : Nat) {numBuckets : Nat} (pos : 0 < numBuckets) :
    0 ≤ jumpLoop step numBuckets numBuckets key (-1) 0 ∧ jumpLoop step numBuckets numBuckets key (-1) 0 < numBuckets := by
  obtain ⟨rounds, rfl⟩ : ∃ k, numBuckets = k + 1 := ⟨numBuckets - 1, by omega⟩
  have first : jumpLoop step (rounds + 1) (rounds + 1) key (-1) 0 =
      jumpLoop step (rounds + 1) rounds (jumpKey key) 0 (step 0 (jumpKey key)) := by
    simp [jumpLoop]
  rw [first]
  exact jumpLoop_lt step (rounds + 1) rounds (jumpKey key) 0 (step 0 (jumpKey key)) (by omega) (by omega)

theorem jumpConsistent_lt (step : Nat → Nat → Nat) (key : Nat) {numBuckets : Nat}
    (pos : 0 < numBuckets) : jumpConsistent step key numBuckets < numBuckets := by
  have range := jumpLoop_range step key pos
  unfold jumpConsistent
  omega

theorem jumpLoop_congr {step step' : Nat → Nat → Nat} {numBuckets : Nat}
    (same : ∀ b key, b < numBuckets → key < 2 ^ 64 → step b key = step' b key) (rounds key : Nat) (b : Int) (j : Nat) :
    jumpLoop step numBuckets rounds key b j = jumpLoop step' numBuckets rounds key b j := by
  induction rounds generalizing key b j with
  | zero => rfl
  | succ rounds ih =>
      unfold jumpLoop
      split_ifs with inside
      · rw [same j (jumpKey key) inside (jumpKey_lt key), ih]
      · rfl

theorem jumpConsistent_grow {step : Nat → Nat → Nat} {n m : Nat} (raises : Raises step m) (le : n ≤ m)
    (key : Nat) : jumpConsistent step key m = jumpConsistent step key n ∨ n ≤ jumpConsistent step key m := by
  obtain ⟨more, rfl⟩ := Nat.exists_eq_add_of_le le
  unfold jumpConsistent
  rw [← jumpLoop_settled (raises.mono le) n key (-1) 0 (by omega) more]
  rcases jumpLoop_grow raises le (n + more) key (-1) 0 with same | beyond
  · exact .inl (by rw [same])
  · exact .inr (by omega)

end SampleFs.Base

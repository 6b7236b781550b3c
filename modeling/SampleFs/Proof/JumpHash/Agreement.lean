import SampleFs.Base.JumpLoops
import SampleFs.Proof.JumpHash.Disruption

namespace SampleFs.Proof.JumpHash
open Lib Base Metaserver

/-- Each step goes up, from every bucket below `n`. -/
def Climbs (step : Int64 → UInt64 → Int64) (n : Nat) : Prop :=
  ∀ (b : Int64) (key : UInt64), 0 ≤ b.toInt → b.toInt < n → b.toInt + 1 ≤ (step b key).toInt

def Tests (inside : Int64 → Bool) (n : Nat) : Prop :=
  ∀ j : Int64, 0 ≤ j.toInt → (inside j = true ↔ j.toInt < n)

def natStep (step : Int64 → UInt64 → Int64) (b key : Nat) : Nat :=
  (step (Int64.ofNat b) (UInt64.ofNat key)).toInt.toNat

section
variable {step : Int64 → UInt64 → Int64} {inside : Int64 → Bool} {n : Nat}

theorem toNat_next (key : UInt64) : (key * 2862933555777941757 + 1).toNat = jumpKey key.toNat := by
  rw [UInt64.toNat_add, UInt64.toNat_mul, jumpKey]
  simp

theorem ofNat_toNat {j : Int64} (nonneg : 0 ≤ j.toInt) : Int64.ofNat j.toInt.toNat = j := by
  apply Int64.toInt_inj.mp
  have small := j.toInt_lt
  rw [Int64.toInt_ofNat_of_lt (by omega)]
  omega

theorem natStep_next {j : Int64} (nonneg : 0 ≤ j.toInt) (key : UInt64) :
    natStep step j.toInt.toNat key.toNat = (step j key).toInt.toNat := by
  rw [natStep, ofNat_toNat nonneg, UInt64.ofNat_toNat]

theorem loop_returns (climbs : Climbs step n) (tests : Tests inside n) (rounds : Nat) (s : JumpLoops.JumpState)
    (nonneg : 0 ≤ s.j.toInt) (enough : n ≤ s.j.toInt.toNat + rounds) :
    ∃ b : Int64, Exec.Returns (fun fuel => Exec.loop (JumpLoops.jumpPass step inside) fuel s) b ∧
      b.toInt = jumpLoop (natStep step) n rounds s.key.toNat s.b.toInt s.j.toInt.toNat := by
  induction rounds generalizing s with
  | zero =>
      have out : ¬ inside s.j = true := mt (tests s.j nonneg).mp (by omega)
      refine ⟨s.b, Exec.returns_done ?_, rfl⟩
      rw [JumpLoops.jumpPass, if_neg out]
      rfl
  | succ rounds ih =>
      by_cases more : s.j.toInt < n
      · obtain ⟨key, b, j⟩ := s
        simp only at nonneg enough more
        have goes : JumpLoops.jumpPass step inside ⟨key, b, j⟩ = .ok (.again ⟨key * 2862933555777941757 + 1, j,
            step j (key * 2862933555777941757 + 1)⟩) := by
          rw [JumpLoops.jumpPass, if_pos ((tests j nonneg).mpr more)]
          rfl
        have raised := climbs j (key * 2862933555777941757 + 1) nonneg more
        obtain ⟨last, returns, same⟩ := ih ⟨key * 2862933555777941757 + 1, j,
          step j (key * 2862933555777941757 + 1)⟩ (by simp only; omega) (by simp only; omega)
        refine ⟨last, Exec.returns_again goes returns, ?_⟩
        have inNat : j.toInt.toNat < n := by omega
        have back : (j.toInt.toNat : Int) = j.toInt := Int.toNat_of_nonneg nonneg
        rw [same, jumpLoop, if_pos inNat, ← toNat_next, natStep_next nonneg, back]
      · have out : ¬ inside s.j = true := mt (tests s.j nonneg).mp more
        refine ⟨s.b, Exec.returns_done ?_, ?_⟩
        · rw [JumpLoops.jumpPass, if_neg out]
          rfl
        · rw [jumpLoop, if_neg (by omega)]

/-! ## The three tests -/

theorem tests_unsigned (small : n < 2 ^ 31) : Tests (fun j => j.toUInt64 < UInt64.ofNat n) n := by
  intro j nonneg
  have value : j.toUInt64.toNat = j.toInt.toNat := Int64.toNat_toUInt64_of_le (Int64.le_iff_toInt_le.mpr nonneg)
  rw [decide_eq_true_iff, UInt64.lt_iff_toNat_lt, value, UInt64.toNat_ofNat_of_lt' (small.trans (by decide))]
  omega

theorem tests_uint32 (small : n < 2 ^ 31) : Tests (fun j => j < (UInt32.ofNat n).toUInt64.toInt64) n := by
  intro j _
  have count : (UInt32.ofNat n).toUInt64.toInt64 = Int64.ofNat n := by
    rw [← UInt64.toInt64_ofNat', UInt32.toUInt64_ofNat' (small.trans (by decide))]
  rw [decide_eq_true_iff, count, Int64.lt_iff_toInt_lt, Int64.toInt_ofNat_of_lt (by omega)]

theorem tests_int32 (small : n < 2 ^ 31) : Tests (fun j => j < (Int32.ofNat n).toInt64) n := by
  intro j _
  rw [decide_eq_true_iff, Int64.lt_iff_toInt_lt, Int32.toInt_toInt64, Int32.toInt_ofNat_of_lt small]

/-! ## Their results -/

theorem jumpLoop_returns (climbs : Climbs step n) (tests : Tests inside n) (some : 1 ≤ n) (small : n < 2 ^ 31)
    (key : UInt64) : Exec.Returns (JumpLoops.jumpLoop step inside key)
      (Int64.ofNat (jumpConsistent (natStep step) key.toNat n)) := by
  obtain ⟨b, returns, same⟩ := loop_returns climbs tests n ⟨key, -1, 0⟩ (show 0 ≤ (0 : Int64).toInt by decide) (by simp)
  have range := jumpLoop_range (natStep step) key.toNat some
  have bucket : b = Int64.ofNat (jumpConsistent (natStep step) key.toNat n) := by
    apply Int64.toInt_inj.mp
    have less := jumpConsistent_lt (natStep step) key.toNat some
    rw [Int64.toInt_ofNat_of_lt (by omega), jumpConsistent, Int.natAbs_of_nonneg range.1]
    exact same
  rwa [bucket] at returns

theorem magnitude_ofNat {v : Nat} (small : v < 2 ^ 31) : JumpLoops.magnitude (Int64.ofNat v) = Int64.ofNat v := by
  have nonneg : ¬ Int64.ofNat v < 0 := by
    rw [Int64.lt_iff_toInt_lt, Int64.toInt_ofNat_of_lt (by omega), Int64.toInt_zero]
    omega
  rw [JumpLoops.magnitude, if_neg nonneg]

structure ReturnBucket (step : Int64 → UInt64 → Int64) (key : UInt64) (n v : Nat) : Prop where
  hashmap : Exec.Returns (JumpLoops.cHashmapJumpConsistent step key (UInt64.ofNat n)) (UInt64.ofNat v)
  dict : Exec.Returns (JumpLoops.dictJumpConsistent step key (UInt32.ofNat n)) (UInt64.ofNat v)
  hash : Exec.Returns (JumpLoops.cHashJumpConsistent step key (Int32.ofNat n)) (UInt32.ofNat v)

theorem loops_return (some : 1 ≤ n) (small : n < 2 ^ 31) (climbs : Climbs step n) (key : UInt64) :
    ReturnBucket step key n (jumpConsistent (natStep step) key.toNat n) := by
  have less := jumpConsistent_lt (natStep step) key.toNat some
  obtain ⟨fuel₁, runs₁⟩ := jumpLoop_returns climbs (tests_unsigned small) some small key
  obtain ⟨fuel₂, runs₂⟩ := jumpLoop_returns climbs (tests_uint32 small) some small key
  obtain ⟨fuel₃, runs₃⟩ := jumpLoop_returns climbs (tests_int32 small) some small key
  generalize jumpConsistent (natStep step) key.toNat n = v at less runs₁ runs₂ runs₃ ⊢
  have positive := magnitude_ofNat (less.trans small)
  have narrow : (UInt64.ofNat v).toUInt32 = UInt32.ofNat v := UInt64.toUInt32_ofNat' ..
  have wide : (UInt32.ofNat v).toUInt64 = UInt64.ofNat v :=
    UInt32.toUInt64_ofNat' ((less.trans small).trans (by decide))
  refine ⟨⟨fuel₁, ?_⟩, ⟨fuel₂, ?_⟩, ⟨fuel₃, ?_⟩⟩
  · rw [JumpLoops.cHashmapJumpConsistent, runs₁, Exec.ok_bind, positive, Int64.toUInt64_ofNat']
    rfl
  · rw [JumpLoops.dictJumpConsistent, runs₂, Exec.ok_bind, positive, Int64.toUInt64_ofNat', narrow, wide]
    rfl
  · rw [JumpLoops.cHashJumpConsistent, runs₃, Exec.ok_bind, positive, Int64.toUInt64_ofNat', narrow]
    rfl

theorem jump_loops_agree (some : 1 ≤ n) (small : n < 2 ^ 31) (climbs : Climbs step n) (key : UInt64) :
    ∃ v < n, ReturnBucket step key n v :=
  ⟨_, jumpConsistent_lt (natStep step) key.toNat some, loops_return some small climbs key⟩

end

/-! ## The step in `double` -/

theorem toInt_doubleStep {b : Int64} {n : Nat} (less : b.toInt < n) (small : n < 2 ^ 31) (key : UInt64) :
    (JumpLoops.doubleStep b key).toInt = jumpStep b.toInt.toNat key.toNat := by
  have bound := jumpStep_le (show b.toInt.toNat < 2 ^ 31 by omega) key.toNat
  rw [JumpLoops.doubleStep, Int64.toInt_ofNat_of_lt (by omega)]

theorem doubleStep_climbs {n : Nat} (small : n < 2 ^ 31) : Climbs JumpLoops.doubleStep n := by
  intro b key nonneg less
  have raised := lt_jumpStep b.toInt.toNat key.toNat (by omega) key.toNat_lt
  rw [toInt_doubleStep less small]
  omega

/-- With it the loops return what the unbounded ones do. -/
theorem loops_refine {n : Nat} (some : 1 ≤ n) (small : n < 2 ^ 31) (key : UInt64) :
    ReturnBucket JumpLoops.doubleStep key n (cHashmapJumpConsistent key.toNat n) ∧
      dictJumpConsistent key.toNat n = cHashmapJumpConsistent key.toNat n ∧
      cHashJumpConsistent key.toNat n = cHashmapJumpConsistent key.toNat n := by
  have same (b key : Nat) (less : b < n) (word : key < 2 ^ 64) : natStep JumpLoops.doubleStep b key = jumpStep b key := by
    have value : (Int64.ofNat b).toInt = b := Int64.toInt_ofNat_of_lt (by omega)
    rw [natStep, toInt_doubleStep (n := n) (by omega) small, value, UInt64.toNat_ofNat_of_lt' word]
    rfl
  have returns := loops_return some small (doubleStep_climbs small) key
  rw [jumpConsistent, jumpLoop_congr same] at returns
  exact ⟨returns, rfl, rfl⟩

theorem jump_loops_agree_double : ∃ v < 1024, ReturnBucket JumpLoops.doubleStep 7 1024 v :=
  jump_loops_agree (by norm_num) (by norm_num) (doubleStep_climbs (by norm_num)) 7

end SampleFs.Proof.JumpHash

import Mathlib.Tactic.IntervalCases
import SampleFs.Base.Jenkins

namespace SampleFs.Proof.CHash
open Lib Base Jenkins

/-! ## Words and their bytes -/

section
variable (mem : Memory) (k : Nat)

theorem read16_eq : read16 mem k = read8 mem k + (read8 mem (k + 1) <<< 8) := by
  have small0 := (mem k).toNat_lt
  have small1 := (mem (k + 1)).toNat_lt
  apply UInt32.toNat_inj.mp
  simp [read16, read8, littleEndian, Nat.shiftLeft_eq]
  omega

theorem read32_eq : read32 mem k =
    read8 mem k + (read8 mem (k + 1) <<< 8) + (read8 mem (k + 2) <<< 16) + (read8 mem (k + 3) <<< 24) := by
  have small0 := (mem k).toNat_lt
  have small1 := (mem (k + 1)).toNat_lt
  have small2 := (mem (k + 2)).toNat_lt
  have small3 := (mem (k + 3)).toNat_lt
  apply UInt32.toNat_inj.mp
  simp [read32, read8, littleEndian, Nat.shiftLeft_eq]
  omega

theorem read16_high : read16 mem k <<< 16 = (read8 mem k <<< 16) + (read8 mem (k + 1) <<< 24) := by
  have small0 := (mem k).toNat_lt
  have small1 := (mem (k + 1)).toNat_lt
  apply UInt32.toNat_inj.mp
  simp [read16, read8, littleEndian, Nat.shiftLeft_eq]
  omega

theorem read32_mask {bits : Nat} {mask : UInt32} (ones : mask.toNat = 2 ^ bits - 1) :
    (read32 mem k &&& mask).toNat = littleEndian [mem k, mem (k + 1), mem (k + 2), mem (k + 3)] % 2 ^ bits := by
  have small := littleEndian_lt [mem k, mem (k + 1), mem (k + 2), mem (k + 3)]
  simp only [List.length_cons, List.length_nil] at small
  rw [UInt32.toNat_and, ones, Nat.and_two_pow_sub_one_eq_mod, read32, UInt32.toNat_ofNat',
    Nat.mod_eq_of_lt (small.trans_eq (by norm_num))]

theorem read32_mask24 : read32 mem k &&& (0xffffff : UInt32) =
    read8 mem k + (read8 mem (k + 1) <<< 8) + (read8 mem (k + 2) <<< 16) := by
  have small0 := (mem k).toNat_lt
  have small1 := (mem (k + 1)).toNat_lt
  have small2 := (mem (k + 2)).toNat_lt
  apply UInt32.toNat_inj.mp
  rw [@read32_mask mem k 24 _ (by decide)]
  simp [littleEndian, read8, Nat.shiftLeft_eq]
  omega

theorem read32_mask16 : read32 mem k &&& (0xffff : UInt32) = read8 mem k + (read8 mem (k + 1) <<< 8) := by
  have small0 := (mem k).toNat_lt
  have small1 := (mem (k + 1)).toNat_lt
  apply UInt32.toNat_inj.mp
  rw [@read32_mask mem k 16 _ (by decide)]
  simp [littleEndian, read8, Nat.shiftLeft_eq]
  omega

theorem read32_mask8 : read32 mem k &&& (0xff : UInt32) = read8 mem k := by
  have small0 := (mem k).toNat_lt
  apply UInt32.toNat_inj.mp
  rw [@read32_mask mem k 8 _ (by decide)]
  simp [littleEndian, read8]

end

/-! ## Blocks -/

section
variable (mem : Memory)

theorem add32_eq : add32 mem = add8 mem := by
  funext k s
  simp only [add32, add8, read32_eq, UInt32.add_assoc]

theorem add16_eq : add16 mem = add8 mem := by
  funext k s
  simp only [add16, add8, ↓read16_high, read16_eq, Nat.add_assoc, Nat.reduceAdd, UInt32.add_assoc]

/-! ## The last block -/

-- The byte path adds the bytes of a word from the last to the first.
section
variable (k : Nat) (x : UInt32)

theorem add_backwards (p q r t : UInt32) : x + (p + q + r + t) = x + t + r + q + p := by ac_rfl

theorem add_read32 : x + read32 mem k =
    x + (read8 mem (k + 3) <<< 24) + (read8 mem (k + 2) <<< 16) + (read8 mem (k + 1) <<< 8) + read8 mem k := by
  rw [read32_eq, add_backwards]

theorem add_read24 : x + (read32 mem k &&& (0xffffff : UInt32)) =
    x + (read8 mem (k + 2) <<< 16) + (read8 mem (k + 1) <<< 8) + read8 mem k := by
  have reordered := add_backwards x (read8 mem k) (read8 mem (k + 1) <<< 8) (read8 mem (k + 2) <<< 16) 0
  rwa [UInt32.add_zero, UInt32.add_zero, ← read32_mask24] at reordered

theorem add_read16 : x + read16 mem k = x + (read8 mem (k + 1) <<< 8) + read8 mem k := by
  have reordered := add_backwards x (read8 mem k) (read8 mem (k + 1) <<< 8) 0 0
  rwa [UInt32.add_zero, UInt32.add_zero, UInt32.add_zero, UInt32.add_zero, ← read16_eq] at reordered

theorem read32_low : read32 mem k &&& (0xffff : UInt32) = read16 mem k := by rw [read32_mask16, read16_eq]

theorem read16_pair : read16 mem k + (read16 mem (k + 2) <<< 16) = read32 mem k := by
  rw [read16_high, read16_eq, read32_eq, ← UInt32.add_assoc]

end

theorem tail32_eq (k length : Nat) (s : State) : tail32 mem k length s = tail8 mem k length s := by
  by_cases last : length ≤ 12
  · interval_cases length <;>
      simp only [tail32, tail8, ↓read32_low, add_read32, add_read24, add_read16, read32_mask8, Nat.add_zero, Nat.add_assoc,
        Nat.reduceAdd]
  · obtain ⟨more, rfl⟩ : ∃ more, length = more + 13 := ⟨length - 13, by omega⟩
    rfl

theorem tail16_eq (k length : Nat) (s : State) : tail16 mem k length s = tail8 mem k length s := by
  by_cases last : length ≤ 12
  · interval_cases length <;>
      simp only [tail16, tail8, ↓read16_pair, add_read32, add_read16, Nat.add_zero, Nat.reduceMul, Nat.mul_zero,
        Nat.add_assoc, Nat.reduceAdd]
  · obtain ⟨more, rfl⟩ : ∃ more, length = more + 13 := ⟨length - 13, by omega⟩
    rfl

theorem jenkins32_eq : jenkins32 mem = jenkins8 mem := by
  have tails : tail32 mem = tail8 mem := funext fun k => funext fun length => funext fun s => tail32_eq mem k length s
  rw [jenkins32, jenkins8, add32_eq, tails]

theorem jenkins16_eq : jenkins16 mem = jenkins8 mem := by
  have tails : tail16 mem = tail8 mem := funext fun k => funext fun length => funext fun s => tail16_eq mem k length s
  rw [jenkins16, jenkins8, add16_eq, tails]

theorem cHashJenkins_eq : cHashJenkins mem = jenkins8 mem := by
  funext key length
  rw [cHashJenkins, jenkins32_eq, jenkins16_eq, ite_self, ite_self]

end

/-! ## Only the bytes of the key count -/

def SameKey (mem mem' : Memory) (key key' length : Nat) : Prop := ∀ i < length, mem (key + i) = mem' (key' + i)

section
variable {mem mem' : Memory} {k k' length : Nat}

theorem SameKey.drop (same : SameKey mem mem' k k' length) {done rest : Nat} (split : done + rest = length) :
    SameKey mem mem' (k + done) (k' + done) rest := by
  intro i less
  rw [Nat.add_assoc, Nat.add_assoc]
  exact same (done + i) (by omega)

theorem SameKey.read8 (same : SameKey mem mem' k k' length) {i : Nat} (less : i < length) :
    Jenkins.read8 mem (k + i) = Jenkins.read8 mem' (k' + i) := by
  rw [Jenkins.read8, same i less, Jenkins.read8]

theorem add8_local (same : SameKey mem mem' k k' length) (whole : 12 < length) (s : State) :
    add8 mem k s = add8 mem' k' s := by
  have first : Jenkins.read8 mem k = Jenkins.read8 mem' k' := same.read8 (i := 0) (by omega)
  simp (disch := omega) only [add8, first, same.read8]

theorem tail8_local (same : SameKey mem mem' k k' length) (s : State) : tail8 mem k length s = tail8 mem' k' length s := by
  by_cases last : length ≤ 12
  · interval_cases length <;> simp (disch := omega) only [tail8, same.read8]
  · obtain ⟨more, rfl⟩ : ∃ more, length = more + 13 := ⟨length - 13, by omega⟩
    rfl

theorem blocks_local (same : SameKey mem mem' k k' length) (s : State) : ∃ done rest t, done + rest = length ∧
    blocks (add8 mem) k length s = (k + done, rest, t) ∧ blocks (add8 mem') k' length s = (k' + done, rest, t) := by
  induction length using Nat.strong_induction_on generalizing k k' s with
  | _ length ih =>
      by_cases whole : 12 < length
      · have later := same.drop (show 12 + (length - 12) = length by omega)
        obtain ⟨done, rest, t, split, left, right⟩ := ih (length - 12) (by omega) later (mix (add8 mem' k' s))
        refine ⟨12 + done, rest, t, by omega, ?_, ?_⟩
        · rw [blocks, if_pos whole, add8_local same whole, left, Nat.add_assoc]
        · rw [blocks, if_pos whole, right, Nat.add_assoc]
      · refine ⟨0, length, s, Nat.zero_add length, ?_, ?_⟩
        · rw [blocks, if_neg whole]
          rfl
        · rw [blocks, if_neg whole]
          rfl

theorem jenkins8_local (same : SameKey mem mem' k k' length) : jenkins8 mem k length = jenkins8 mem' k' length := by
  obtain ⟨done, rest, t, split, left, right⟩ := blocks_local same
    ⟨0xdeadbeef + UInt32.ofNat length + jenkinsInitval, 0xdeadbeef + UInt32.ofNat length + jenkinsInitval,
      0xdeadbeef + UInt32.ofNat length + jenkinsInitval⟩
  simp only [jenkins8, path, left, right, tail8_local (same.drop split)]

theorem jenkins_paths_agree (same : SameKey mem mem' k k' length) :
    jenkins32 mem k length = jenkins8 mem' k' length ∧ jenkins16 mem k length = jenkins8 mem' k' length ∧
      jenkins8 mem k length = jenkins8 mem' k' length ∧ cHashJenkins mem k length = cHashJenkins mem' k' length := by
  rw [jenkins32_eq, jenkins16_eq, cHashJenkins_eq, cHashJenkins_eq]
  have bytes := jenkins8_local same
  exact ⟨bytes, bytes, bytes, bytes⟩

end

/-- Five bytes at an aligned address and at an odd one, with other bytes behind them. -/
theorem jenkins_paths_agree_moved :
    cHashJenkins (fun i => UInt8.ofNat i) 4 5 = cHashJenkins (fun i => UInt8.ofNat (min i 11 - 3)) 7 5 :=
  (@jenkins_paths_agree (fun i => UInt8.ofNat i) (fun i => UInt8.ofNat (min i 11 - 3)) 4 7 5 (by
    intro i less
    interval_cases i <;> rfl)).2.2.2

end SampleFs.Proof.CHash

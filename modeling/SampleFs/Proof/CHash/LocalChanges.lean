import SampleFs.Base.Murmur
import SampleFs.Proof.CHash.Signedness

namespace SampleFs.Proof.CHash
open Lib Base

/-! ## The hashes that go over the bytes -/

theorem toUInt32_injective (char : PlainChar) : Function.Injective char.toUInt32 := by
  have low (c : UInt8) : (char.toUInt32 c).toNat % 256 = c.toNat := by
    have every : ∀ i : Fin 256, (char.toUInt32 (UInt8.ofFin i)).toNat % 256 = (UInt8.ofFin i).toNat := by
      cases char <;> decide +kernel
    exact every c.toFin
  intro c d same
  apply UInt8.toNat_inj.mp
  rw [← low c, same, low d]

theorem oneAtATimeFinal_injective : Function.Injective fun value : UInt32 =>
    let value := value + (value <<< 3)
    let value := value ^^^ (value >>> 11)
    value + (value <<< 15) :=
  injective_of_toBitVec (fun _ => rfl) ((addShift_injective (show 0 < 15 by decide)).comp
    ((xorShift_injective (show 0 < 11 by decide)).comp (addShift_injective (show 0 < 3 by decide))))

section
variable (char : PlainChar) {key other : List UInt8} (differ : DifferInBlock 1 key other)
include differ

theorem fnv1_differ {prime inverse : UInt32} (unit : prime * inverse = 1) (init : UInt32) :
    char.fnv1 prime init key ≠ char.fnv1 prime init other := by
  apply foldl_differ (fnv1Step_injective char unit) _ differ
  intro hash c d same
  exact toUInt32_injective char ((UInt32.xor_right_inj _).mp same)

theorem fnv1a_differ {prime inverse : UInt32} (unit : prime * inverse = 1) (init : UInt32) :
    char.fnv1a prime init key ≠ char.fnv1a prime init other := by
  apply foldl_differ (fnv1aStep_injective char unit) _ differ
  intro hash c d same
  exact toUInt32_injective char ((UInt32.xor_right_inj _).mp (mul_injective unit same))

theorem oneAtATime_differ : char.cHashOneAtATime key ≠ char.cHashOneAtATime other := by
  intro same
  refine foldl_differ (oneAtATimeStep_injective char) ?_ differ 0 (oneAtATimeFinal_injective same)
  intro value c d equal
  exact toUInt32_injective char ((UInt32.add_right_inj _).mp (oneAtATimeMix_injective equal))

end

/-! ## Murmur -/

namespace Murmur
open Base.Murmur

theorem m_unit : m * 3852147133#32 = 1#32 := by decide

theorem word_injective (h : BitVec 32) {left right : List UInt8} (four : left.length = 4) (same : left.length = right.length)
    (equal : word h left = word h right) : left = right := by
  apply bytesWord_injective (w := 32) same (by omega)
  have words := (BitVec.xor_right_inj _).mp equal
  exact mul_unit_injective m_unit (xorShift_injective (show 0 < 24 by decide) (mul_unit_injective m_unit words))

theorem word_state_injective (block : List UInt8) : Function.Injective fun h => word h block :=
  fun _ _ equal => mul_unit_injective m_unit ((BitVec.xor_left_inj _).mp equal)

theorem tail_cons (h : BitVec 32) (c : UInt8) (rest : List UInt8) : tail h (c :: rest) = (h ^^^ bytesWord (c :: rest)) * m := rfl

theorem mixes : Mixes 4 word tail where
  state := fun block _ => word_state_injective block
  block := fun h left right four other equal => word_injective h four (four.trans other.symm) equal
  lastState := by
    intro rest _
    cases rest with
    | nil => exact Function.injective_id
    | cons c rest => exact fun _ _ equal => (BitVec.xor_left_inj _).mp (mul_unit_injective m_unit equal)
  lastRest := by
    intro h left right short same equal
    cases left with
    | nil => exact (List.length_eq_zero_iff.mp same.symm).symm
    | cons c rest =>
        cases right with
        | nil => cases same
        | cons d others =>
            rw [tail_cons, tail_cons] at equal
            apply bytesWord_injective (w := 32) same (by omega)
            exact (BitVec.xor_right_inj _).mp (mul_unit_injective m_unit equal)

theorem mixed_injective : Function.Injective mixed := by
  intro x y equal
  apply xorShift_injective (show 0 < 13 by decide)
  exact mul_unit_injective m_unit (xorShift_injective (show 0 < 15 by decide) equal)

theorem differ {key other : List UInt8} (apart : DifferInBlock 4 key other) : cHashMurmur key ≠ cHashMurmur other := by
  intro equal
  rw [cHashMurmur, cHashMurmur, ← apart.length] at equal
  exact absorb_differ mixes (by decide) apart _ (mixed_injective equal)

end Murmur

namespace Murmur3
open Base.Murmur3

theorem c1_unit : c1 * 12214898983567248765#64 = 1#64 := by decide
theorem c2_unit : c2 * 12114143059468233855#64 = 1#64 := by decide

theorem k1_injective : Function.Injective k1 := fun _ _ equal =>
  mul_unit_injective c1_unit (rotl_injective (show 31 ≤ 64 by decide) (mul_unit_injective c2_unit equal))

theorem k2_injective : Function.Injective k2 := fun _ _ equal =>
  mul_unit_injective c2_unit (rotl_injective (show 33 ≤ 64 by decide) (mul_unit_injective c1_unit equal))

theorem fmix64_injective : Function.Injective fmix64 := by
  intro x y equal
  have first := xorShift_injective (show 0 < 33 by decide) equal
  have second := mul_unit_injective (show 0xc4ceb9fe1a85ec53#64 * 11291846944257947611#64 = 1#64 by decide) first
  have third := xorShift_injective (show 0 < 33 by decide) second
  have fourth := mul_unit_injective (show 0xff51afd7ed558ccd#64 * 5725274745694666757#64 = 1#64 by decide) third
  exact xorShift_injective (show 0 < 33 by decide) fourth

/-- What `h1` and `h2` each go through after their word has been mixed in. -/
def halfRound (r : Nat) (added constant x : BitVec 64) : BitVec 64 := (rotl x r + added) * 5 + constant

theorem halfRound_injective {r : Nat} (le : r ≤ 64) (added constant : BitVec 64) :
    Function.Injective (halfRound r added constant) := by
  intro x y equal
  have product := (BitVec.add_left_inj _).mp equal
  have sum := mul_unit_injective (show 5#64 * 14757395258967641293#64 = 1#64 by decide) product
  exact rotl_injective le ((BitVec.add_left_inj _).mp sum)

theorem block_h1 (s : State) (bytes : List UInt8) :
    (block s bytes).h1 = halfRound 27 s.h2 0x52dce729 (s.h1 ^^^ k1 (bytesWord (bytes.take 8))) := rfl

theorem block_h2 (s : State) (bytes : List UInt8) :
    (block s bytes).h2 = halfRound 31 (block s bytes).h1 0x38495ab5 (s.h2 ^^^ k2 (bytesWord (bytes.drop 8))) := rfl

theorem block_injective (s : State) {left right : List UInt8} (full : left.length = 16) (same : left.length = right.length)
    (equal : block s left = block s right) : left = right := by
  have first := congrArg State.h1 equal
  have second := congrArg State.h2 equal
  rw [block_h1, block_h1] at first
  rw [block_h2, block_h2, equal] at second
  have low := k1_injective ((BitVec.xor_right_inj _).mp (halfRound_injective (by decide) _ _ first))
  have high := k2_injective ((BitVec.xor_right_inj _).mp (halfRound_injective (by decide) _ _ second))
  have lows : left.take 8 = right.take 8 := by
    apply bytesWord_injective (w := 64) _ _ low
    · rw [List.length_take, List.length_take, same]
    · rw [List.length_take]
      omega
  have highs : left.drop 8 = right.drop 8 := by
    apply bytesWord_injective (w := 64) _ _ high
    · rw [List.length_drop, List.length_drop, same]
    · rw [List.length_drop]
      omega
  rw [← List.take_append_drop 8 left, ← List.take_append_drop 8 right, lows, highs]

-- The second half first: its other operand is the new `h1`, which is the same on both sides.
theorem block_state_injective (bytes : List UInt8) : Function.Injective fun s => block s bytes := by
  intro s t equal
  simp only at equal
  have first := congrArg State.h1 equal
  have second := congrArg State.h2 equal
  rw [block_h2, block_h2, equal] at second
  have h2 := (BitVec.xor_left_inj _).mp (halfRound_injective (by decide) _ _ second)
  rw [block_h1, block_h1, h2] at first
  have h1 := (BitVec.xor_left_inj _).mp (halfRound_injective (by decide) _ _ first)
  obtain ⟨s1, s2⟩ := s
  obtain ⟨t1, t2⟩ := t
  simp only at h1 h2
  rw [h1, h2]

theorem tail_state_injective (rest : List UInt8) : Function.Injective fun s => tail s rest := by
  rintro ⟨s1, s2⟩ ⟨t1, t2⟩ equal
  simp only [tail] at equal
  obtain ⟨first, second⟩ := State.mk.inj equal
  have h1 : s1 = t1 := by
    split at first
    · exact (BitVec.xor_left_inj _).mp first
    · exact first
  have h2 : s2 = t2 := by
    split at second
    · exact (BitVec.xor_left_inj _).mp second
    · exact second
  rw [h1, h2]

theorem tail_injective (s : State) {left right : List UInt8} (short : left.length < 16) (same : left.length = right.length)
    (equal : tail s left = tail s right) : left = right := by
  simp only [tail, same] at equal
  obtain ⟨first, second⟩ := State.mk.inj equal
  have lows : left.take 8 = right.take 8 := by
    split at first
    · have words := k1_injective ((BitVec.xor_right_inj _).mp first)
      apply bytesWord_injective (w := 64) _ _ words
      · rw [List.length_take, List.length_take, same]
      · rw [List.length_take]
        omega
    · rw [List.length_eq_zero_iff.mp (show left.length = 0 by omega),
        List.length_eq_zero_iff.mp (show right.length = 0 by omega)]
  have highs : left.drop 8 = right.drop 8 := by
    split at second
    · have words := k2_injective ((BitVec.xor_right_inj _).mp second)
      apply bytesWord_injective (w := 64) _ _ words
      · rw [List.length_drop, List.length_drop, same]
      · rw [List.length_drop]
        omega
    · rw [List.drop_eq_nil_of_le (by omega), List.drop_eq_nil_of_le (by omega)]
  rw [← List.take_append_drop 8 left, ← List.take_append_drop 8 right, lows, highs]

theorem mixes : Mixes 16 block tail where
  state := fun bytes _ => block_state_injective bytes
  block := fun s _ _ full other equal => block_injective s full (full.trans other.symm) equal
  lastState := fun rest _ => tail_state_injective rest
  lastRest := fun s _ _ short same equal => tail_injective s short same equal

def cross (s : State) : State := ⟨s.h1 + s.h2, s.h2 + (s.h1 + s.h2)⟩

theorem cross_injective : Function.Injective cross := by
  rintro ⟨s1, s2⟩ ⟨t1, t2⟩ equal
  obtain ⟨first, second⟩ := State.mk.inj equal
  simp only at first second
  rw [first] at second
  have h2 := (BitVec.add_left_inj _).mp second
  rw [h2] at first
  rw [(BitVec.add_left_inj _).mp first, h2]

def each (f : BitVec 64 → BitVec 64) (s : State) : State := ⟨f s.h1, f s.h2⟩

theorem each_injective {f : BitVec 64 → BitVec 64} (once : Function.Injective f) : Function.Injective (each f) := by
  rintro ⟨s1, s2⟩ ⟨t1, t2⟩ equal
  obtain ⟨first, second⟩ := State.mk.inj equal
  simp only at first second
  rw [once first, once second]

theorem final_injective (len : Nat) : Function.Injective (final len) := by
  have lengths : Function.Injective fun x : BitVec 64 => x ^^^ BitVec.ofNat 64 len :=
    fun _ _ equal => (BitVec.xor_left_inj _).mp equal
  have stages : final len = cross ∘ each fmix64 ∘ cross ∘ each fun x => x ^^^ BitVec.ofNat 64 len := rfl
  rw [stages]
  exact cross_injective.comp ((each_injective fmix64_injective).comp (cross_injective.comp (each_injective lengths)))

theorem differ {key other : List UInt8} (apart : DifferInBlock 16 key other) (seed : BitVec 32) :
    cHashMurmurHash3X64_128 key seed ≠ cHashMurmurHash3X64_128 other seed := by
  intro equal
  rw [cHashMurmurHash3X64_128, cHashMurmurHash3X64_128, ← apart.length] at equal
  exact absorb_differ mixes (by decide) apart _ (final_injective _ equal)

end Murmur3

/-- Two keys of one length that differ in one byte, one aligned word or one aligned block of 16 bytes
have different hashes. -/
theorem local_change_shows (key other : List UInt8) :
    (DifferInBlock 1 key other → ∀ char : PlainChar,
      char.cHashFnv1_64 key ≠ char.cHashFnv1_64 other ∧ char.cHashFnv1a_64 key ≠ char.cHashFnv1a_64 other ∧
      char.cHashFnv1_32 key ≠ char.cHashFnv1_32 other ∧ char.cHashFnv1a_32 key ≠ char.cHashFnv1a_32 other ∧
      char.cHashOneAtATime key ≠ char.cHashOneAtATime other) ∧
    (DifferInBlock 4 key other → cHashMurmur key ≠ cHashMurmur other) ∧
    (DifferInBlock 16 key other → ∀ seed, cHashMurmurHash3X64_128 key seed ≠ cHashMurmurHash3X64_128 other seed) := by
  have unit64 : PlainChar.fnv64Prime.toUInt32 * 2952172923 = 1 := by decide
  have unit32 : PlainChar.fnv32Prime * 899433627 = 1 := by decide
  refine ⟨?_, Murmur.differ, Murmur3.differ⟩
  intro differ char
  refine ⟨?_, fnv1a_differ char differ unit64 _, fnv1_differ char differ unit32 _, fnv1a_differ char differ unit32 _,
    oneAtATime_differ char differ⟩
  rw [cHashFnv1_64_eq, cHashFnv1_64_eq]
  exact fnv1_differ char differ unit64 _

theorem local_change_shows_second : PlainChar.signed.cHashFnv1a_64 [97, 98, 99] ≠ PlainChar.signed.cHashFnv1a_64 [97, 66, 99] ∧
    cHashMurmur [97, 98, 99] ≠ cHashMurmur [97, 66, 99] ∧
    cHashMurmurHash3X64_128 [97, 98, 99] 7 ≠ cHashMurmurHash3X64_128 [97, 66, 99] 7 := by
  have outside (n : Nat) (i : Nat) (away : i / n ≠ 1 / n) : ([97, 98, 99] : List UInt8)[i]? = [97, 66, 99][i]? := by
    have other : i ≠ 1 := fun same => away (same ▸ rfl)
    rcases i with _ | _ | i
    · rfl
    · exact absurd rfl other
    · rfl
  have differ (n : Nat) : DifferInBlock n ([97, 98, 99] : List UInt8) [97, 66, 99] := ⟨by decide, rfl, 1 / n, outside n⟩
  obtain ⟨bytes, words, blocks⟩ := local_change_shows [97, 98, 99] [97, 66, 99]
  exact ⟨(bytes (differ 1) .signed).2.1, words (differ 4), blocks (differ 16) 7⟩

end SampleFs.Proof.CHash

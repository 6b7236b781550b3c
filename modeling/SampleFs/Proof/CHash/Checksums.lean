import Mathlib.Data.List.GetD
import Mathlib.Data.List.Induction
import SampleFs.Base.Checksums
import SampleFs.Lib.Crc

namespace SampleFs.Proof.CHash
open Lib Base

/-! ## CRC-32 -/

def crc32Poly : BitVec 32 := 0xEDB88320#32

/-- The bits of a byte as they are sent, the lowest one first. -/
def bitsOf (c : UInt8) : List Bool := (List.range 8).map c.toNat.testBit

def messageBits (key : List UInt8) : List Bool := key.flatMap bitsOf

def crc32Register (key : List UInt8) : BitVec 32 := Crc.feed crc32Poly (messageBits key) (BitVec.allOnes 32)

theorem length_bitsOf (c : UInt8) : (bitsOf c).length = 8 := by
  rw [bitsOf, List.length_map, List.length_range]

theorem getD_map_range {f : Nat → α} {count i : Nat} (inside : i < count) (default : α) :
    ((List.range count).map f).getD i default = f i := by
  simp [List.getD_eq_getElem?_getD, inside]

theorem crc32tab_shifts {i : Nat} (inside : i < 256) :
    (crc32tab.getD i 0).toBitVec = Crc.shifts crc32Poly 8 (BitVec.ofNat 32 i) := by
  have table : crc32tab.map UInt32.toBitVec =
      (List.range 256).map fun i => Crc.shifts crc32Poly 8 (BitVec.ofNat 32 i) := by
    decide +kernel
  calc
    (crc32tab.getD i 0).toBitVec = (crc32tab.map UInt32.toBitVec).getD i (UInt32.toBitVec 0) := (List.getD_map ..).symm
    _ = Crc.shifts crc32Poly 8 (BitVec.ofNat 32 i) := by rw [table, getD_map_range inside]

theorem getD_bitsOf (c : UInt8) (i : Nat) : (bitsOf c).getD i false = c.toBitVec.getLsbD i := by
  have bit : c.toBitVec.getLsbD i = c.toNat.testBit i := rfl
  rw [bitsOf, List.getD_eq_getElem?_getD, List.getElem?_map, bit]
  by_cases inside : i < 8
  · simp [inside]
  · have out : c.toBitVec.getLsbD i = false := BitVec.getLsbD_of_ge _ _ (by omega)
    rw [List.getElem?_eq_none (by simpa using inside), ← bit, out]
    rfl

theorem pack_bitsOf (c : UInt8) : (Crc.pack (bitsOf c) : BitVec 32) = c.toUInt32.toBitVec := by
  apply BitVec.eq_of_getLsbD_eq
  intro i less
  have wide : c.toUInt32.toBitVec = c.toBitVec.setWidth 32 := rfl
  rw [Crc.getLsbD_pack i less, getD_bitsOf, wide, BitVec.getLsbD_setWidth, decide_eq_true less, Bool.true_and]

theorem low_byte (x : UInt32) : (x &&& 0xFF).toNat = x.toNat % 256 := by
  rw [UInt32.toNat_and]
  exact Nat.and_two_pow_sub_one_eq_mod x.toNat 8

theorem crc32aStep_feed (crc : UInt32) (c : UInt8) :
    (crc32aStep crc c).toBitVec = Crc.feed crc32Poly (bitsOf c) crc.toBitVec := by
  have low : ((crc ^^^ c.toUInt32).toBitVec.setWidth 8).setWidth 32 =
      BitVec.ofNat 32 ((crc ^^^ c.toUInt32).toNat % 256) := by
    apply BitVec.eq_of_toNat_eq
    rw [BitVec.toNat_setWidth, BitVec.toNat_setWidth, BitVec.toNat_ofNat]
    rfl
  have high : (crc ^^^ c.toUInt32).toBitVec >>> 8 = (crc >>> 8).toBitVec := by
    apply BitVec.eq_of_toNat_eq
    have byte : c.toNat >>> 8 = 0 := Nat.shiftRight_eq_zero c.toNat 8 c.toNat_lt
    simp [Nat.shiftRight_xor_distrib, byte]
  rw [Crc.feed_eq_shifts (by rw [length_bitsOf]; decide), pack_bitsOf, ← UInt32.toBitVec_xor, length_bitsOf,
    Crc.shifts_split, low, high,
    crc32aStep, UInt32.toBitVec_xor, low_byte, crc32tab_shifts (Nat.mod_lt _ (by decide))]

theorem crc32a_feed (key : List UInt8) (crc : UInt32) :
    (key.foldl crc32aStep crc).toBitVec = Crc.feed crc32Poly (messageBits key) crc.toBitVec := by
  induction key generalizing crc with
  | nil => rfl
  | cons c rest ih =>
      rw [List.foldl_cons, ih, crc32aStep_feed, messageBits, messageBits, List.flatMap_cons, Crc.feed, Crc.feed, Crc.feed,
        List.foldl_append]

theorem crc32Step_eq (char : PlainChar) (crc : UInt32) (c : UInt8) : char.crc32Step crc c = crc32aStep crc c := by
  have narrow : (char.toUInt64 c).toNat % 256 = c.toUInt32.toNat % 256 := by
    have every : ∀ i : Fin 256, (char.toUInt64 (UInt8.ofFin i)).toNat % 256 = (UInt8.ofFin i).toUInt32.toNat % 256 := by
      cases char <;> decide +kernel
    exact every c.toFin
  have index : ((crc.toUInt64 ^^^ char.toUInt64 c) &&& 0xff).toNat = ((crc ^^^ c.toUInt32) &&& 0xFF).toNat := by
    rw [low_byte, UInt64.toNat_and, UInt64.toNat_xor, UInt32.toNat_xor, UInt32.toNat_toUInt64]
    refine (Nat.and_two_pow_sub_one_eq_mod _ 8).trans ?_
    refine (Nat.xor_mod_two_pow (n := 8)).trans ?_
    rw [show (2 : Nat) ^ 8 = 256 from rfl, narrow]
    exact (Nat.xor_mod_two_pow (n := 8)).symm
  rw [PlainChar.crc32Step, crc32aStep, index, UInt32.xor_comm]

/-- Bits 16 to 30 of the checksum, whichever kind of `char` the platform has. -/
theorem crc32_of_crc32a (char : PlainChar) (key : List UInt8) :
    char.cHashCrc32 key = (cHashCrc32a key >>> 16) &&& 0x7fff := by
  have loops : key.foldl char.crc32Step 0xffffffff = key.foldl crc32aStep (~~~0) :=
    List.foldl_ext _ _ _ fun crc c _ => crc32Step_eq char crc c
  rw [PlainChar.cHashCrc32, loops, cHashCrc32a, UInt32.xor_not, UInt32.xor_zero]

theorem bitsOf_injective : Function.Injective bitsOf := by
  intro c d same
  have words : c.toUInt32.toBitVec = d.toUInt32.toBitVec := by rw [← pack_bitsOf, same, pack_bitsOf]
  exact UInt8.toUInt32_inj.mp (UInt32.toBitVec_inj.mp words)

theorem flatMap_injective {bits : UInt8 → List Bool} (once : Function.Injective bits)
    (length : ∀ c, (bits c).length = 8) : Function.Injective fun key : List UInt8 => key.flatMap bits := by
  intro key other same
  simp only at same
  induction key generalizing other with
  | nil =>
      cases other with
      | nil => rfl
      | cons d rest =>
          have lengths := congrArg List.length same
          rw [List.flatMap_cons, List.length_append, length, List.flatMap_nil, List.length_nil] at lengths
          omega
  | cons c rest ih =>
      cases other with
      | nil =>
          have lengths := congrArg List.length same
          rw [List.flatMap_cons, List.length_append, length, List.flatMap_nil, List.length_nil] at lengths
          omega
      | cons d others =>
          rw [List.flatMap_cons, List.flatMap_cons] at same
          obtain ⟨first, later⟩ := List.append_inj same (by rw [length, length])
          rw [once first, ih later]

/-- The keys differ, and only within some `width` consecutive bits. -/
def BurstOf (width : Nat) (bits : List UInt8 → List Bool) (key other : List UInt8) : Prop :=
  key ≠ other ∧ ∃ before left right after, bits key = before ++ left ++ after ∧ bits other = before ++ right ++ after ∧
    left.length = right.length ∧ left.length ≤ width

theorem crc32a_eq (key : List UInt8) : (cHashCrc32a key).toBitVec = ~~~crc32Register key := by
  rw [cHashCrc32a, UInt32.xor_not, UInt32.xor_zero, UInt32.toBitVec_not, crc32a_feed]
  rfl

theorem crc32Register_burst {key other : List UInt8} (burst : BurstOf 32 messageBits key other) :
    crc32Register key ≠ crc32Register other := by
  obtain ⟨differ, before, left, right, after, first, second, same, fits⟩ := burst
  rw [crc32Register, crc32Register, first, second]
  apply Crc.feed_burst (by decide) _ same fits
  rintro rfl
  exact differ (flatMap_injective bitsOf_injective length_bitsOf (first.trans second.symm))

/-- The table computes the division bit by bit, `c_hash_crc32` returns fifteen bits of it, and keys that
differ within 32 consecutive bits have different checksums. -/
theorem crc32_checksum (key : List UInt8) :
    (cHashCrc32a key).toBitVec = ~~~crc32Register key ∧
    (∀ char : PlainChar, char.cHashCrc32 key = (cHashCrc32a key >>> 16) &&& 0x7fff) ∧
    ∀ other, BurstOf 32 messageBits key other → cHashCrc32a key ≠ cHashCrc32a other := by
  refine ⟨crc32a_eq key, fun char => crc32_of_crc32a char key, ?_⟩
  intro other burst equal
  apply crc32Register_burst burst
  have words := congrArg UInt32.toBitVec equal
  rw [crc32a_eq, crc32a_eq] at words
  exact (BitVec.not_inj).mp words

theorem crc32_checksum_digits : cHashCrc32a [49, 50, 51, 52, 53, 54, 55, 56, 57] = 0xcbf43926 ∧
    cHashCrc32a [49, 50, 51] ≠ cHashCrc32a [49, 52, 50] := by
  refine ⟨by decide +kernel, (crc32_checksum [49, 50, 51]).2.2 [49, 52, 50] ⟨by decide, ?_⟩⟩
  exact ⟨bitsOf 49, bitsOf 50 ++ bitsOf 51, bitsOf 52 ++ bitsOf 50, [], by decide, by decide, by decide, by decide⟩

/-! ## CRC-16 -/

def crc16Poly : BitVec 16 := 0x1021#16

def bitsDown (c : UInt8) : List Bool := (bitsOf c).reverse

def messageBitsDown (key : List UInt8) : List Bool := key.flatMap bitsDown

def crc16Register (key : List UInt8) : BitVec 16 := Crc.feedUp crc16Poly (messageBitsDown key) 0#16

theorem crc16tab_shifts {i : Nat} (inside : i < 256) :
    (crc16tab.getD i 0).toBitVec = (Crc.shiftUp crc16Poly)^[8] (BitVec.ofNat 16 i <<< 8) := by
  have table : crc16tab.map UInt16.toBitVec =
      (List.range 256).map fun i => (Crc.shiftUp crc16Poly)^[8] (BitVec.ofNat 16 i <<< 8) := by
    decide +kernel
  calc
    (crc16tab.getD i 0).toBitVec = (crc16tab.map UInt16.toBitVec).getD i (UInt16.toBitVec 0) := (List.getD_map ..).symm
    _ = (Crc.shiftUp crc16Poly)^[8] (BitVec.ofNat 16 i <<< 8) := by rw [table, getD_map_range inside]

theorem length_bitsDown (c : UInt8) : (bitsDown c).length = 8 := by rw [bitsDown, List.length_reverse, length_bitsOf]

theorem getD_bitsDown (c : UInt8) {i : Nat} (inside : i < 8) : (bitsDown c).getD i false = c.toBitVec.getLsbD (7 - i) := by
  rw [bitsDown, List.getD_eq_getElem?_getD, List.getElem?_reverse (by rwa [length_bitsOf]), length_bitsOf,
    ← List.getD_eq_getElem?_getD, getD_bitsOf]

theorem packUp_bitsDown (c : UInt8) : (Crc.packUp (bitsDown c) : BitVec 16) = c.toUInt16.toBitVec <<< 8 := by
  apply BitVec.eq_of_getLsbD_eq
  intro i less
  have wide : c.toUInt16.toBitVec = c.toBitVec.setWidth 16 := rfl
  rw [Crc.getLsbD_packUp i less, BitVec.getLsbD_shiftLeft, wide, BitVec.getLsbD_setWidth]
  by_cases low : i < 8
  · rw [List.getD_eq_getElem?_getD, List.getElem?_eq_none (by rw [length_bitsDown]; omega)]
    simp [low]
  · have place : 7 - (16 - 1 - i) = i - 8 := by omega
    have inside : i - 8 < 16 := by omega
    rw [getD_bitsDown c (by omega), place]
    simp [less, low, inside]

theorem bitsDown_injective : Function.Injective bitsDown := List.reverse_injective.comp bitsOf_injective

theorem feedUp_bitsDown (s : BitVec 16) (c : UInt8) :
    Crc.feedUp crc16Poly (bitsDown c) s =
      (crc16tab.getD (s.toNat / 256 ^^^ c.toNat) 0).toBitVec ^^^ (s <<< 8) := by
  have small : s.toNat / 256 ^^^ c.toNat < 256 := by
    apply Nat.xor_lt_two_pow (n := 8)
    · have := s.isLt
      omega
    · exact c.toNat_lt
  have index : (s ^^^ (c.toUInt16.toBitVec <<< 8)) >>> 8 = BitVec.ofNat 16 (s.toNat / 256 ^^^ c.toNat) := by
    apply BitVec.eq_of_toNat_eq
    have word : c.toNat <<< 8 < 2 ^ 16 := by
      have := c.toNat_lt
      rw [Nat.shiftLeft_eq]
      omega
    have byte : c.toUInt16.toBitVec.toNat = c.toNat := UInt8.toNat_toUInt16 c
    rw [BitVec.toNat_ushiftRight, BitVec.toNat_xor, BitVec.toNat_shiftLeft, BitVec.toNat_ofNat, byte,
      Nat.mod_eq_of_lt word, Nat.mod_eq_of_lt (show s.toNat / 256 ^^^ c.toNat < 2 ^ 16 by omega),
      Nat.shiftRight_xor_distrib, Nat.shiftLeft_shiftRight, Nat.shiftRight_eq_div_pow]
  have gone : (s ^^^ (c.toUInt16.toBitVec <<< 8)) <<< 8 = s <<< 8 := by
    have out : c.toUInt16.toBitVec <<< (8 + 8) = 0#16 := BitVec.shiftLeft_eq_zero (Nat.le_refl 16)
    rw [BitVec.shiftLeft_xor_distrib, ← BitVec.shiftLeft_add, out, BitVec.xor_zero]
  rw [Crc.feedUp_lookup (by rw [length_bitsDown]; decide), length_bitsDown, packUp_bitsDown, gone, crc16tab_shifts small,
    ← index]

theorem crc16Step_feedUp (char : PlainChar) (crc : UInt32) (c : UInt8) :
    (char.crc16Step crc c).toBitVec =
      (crc.toBitVec >>> 8).setWidth 16 ++ Crc.feedUp crc16Poly (bitsDown c) (crc.toBitVec.setWidth 16) := by
  have narrow : (char.toUInt32 c).toNat % 256 = c.toNat := by
    have every : ∀ i : Fin 256, (char.toUInt32 (UInt8.ofFin i)).toNat % 256 = (UInt8.ofFin i).toNat := by
      cases char <;> decide +kernel
    exact every c.toFin
  have index : (((crc >>> 8) ^^^ char.toUInt32 c) &&& 0x00ff).toNat = (crc.toBitVec.setWidth 16).toNat / 256 ^^^ c.toNat := by
    rw [low_byte, UInt32.toNat_xor]
    refine (Nat.xor_mod_two_pow (n := 8)).trans ?_
    rw [show (2 : Nat) ^ 8 = 256 from rfl, narrow, BitVec.toNat_setWidth]
    congr 1
    have shifted : (crc >>> 8).toNat = crc.toNat / 256 := by
      rw [UInt32.toNat_shiftRight, Nat.shiftRight_eq_div_pow]
      rfl
    have word : crc.toBitVec.toNat = crc.toNat := rfl
    omega
  rw [PlainChar.crc16Step, index, feedUp_bitsDown]
  generalize crc16tab.getD _ 0 = entry
  have left : (crc <<< 8).toBitVec = crc.toBitVec <<< 8 := by
    rw [UInt32.toBitVec_shiftLeft]
    rfl
  have wide : entry.toUInt32.toBitVec = entry.toBitVec.setWidth 32 := rfl
  apply BitVec.eq_of_getLsbD_eq
  intro i less
  rw [UInt32.toBitVec_xor, left, wide, BitVec.getLsbD_append, BitVec.getLsbD_xor, BitVec.getLsbD_xor,
    BitVec.getLsbD_shiftLeft, BitVec.getLsbD_shiftLeft, BitVec.getLsbD_setWidth, BitVec.getLsbD_setWidth,
    BitVec.getLsbD_setWidth, BitVec.getLsbD_ushiftRight]
  by_cases low : i < 16
  · by_cases first : i < 8
    · simp [low, less, first]
    · have inside : i - 8 < 16 := by omega
      simp [low, less, first, inside, Bool.xor_comm]
  · have out : entry.toBitVec.getLsbD i = false := BitVec.getLsbD_of_ge _ _ (by omega)
    have high : ¬ i < 8 := by omega
    have place : 8 + (i - 16) = i - 8 := by omega
    have inside : i - 16 < 16 := by omega
    simp [low, less, out, high, place, inside]

theorem crc16Register_append (key : List UInt8) (c : UInt8) :
    crc16Register (key ++ [c]) = Crc.feedUp crc16Poly (bitsDown c) (crc16Register key) := by
  rw [crc16Register, messageBitsDown, List.flatMap_append, List.flatMap_singleton, Crc.feedUp, List.foldl_append]
  rfl

def highByte (s : BitVec 16) : BitVec 8 := s.extractLsb' 8 8

/-- The checksum, and above it the high bytes of the checksums of the key without its last bytes. -/
def crc16Word (key : List UInt8) : BitVec 32 :=
  (highByte (crc16Register key.dropLast.dropLast) ++ highByte (crc16Register key.dropLast)) ++ crc16Register key

theorem setWidth_word (a b : BitVec 8) (x : BitVec 16) : ((a ++ b) ++ x).setWidth 16 = x := by
  apply BitVec.eq_of_getLsbD_eq
  intro i less
  rw [BitVec.getLsbD_setWidth, BitVec.getLsbD_append]
  simp [less]

theorem shift_word (a b : BitVec 8) (x : BitVec 16) :
    (((a ++ b) ++ x) >>> 8).setWidth 16 = b ++ highByte x := by
  apply BitVec.eq_of_getLsbD_eq
  intro i less
  rw [BitVec.getLsbD_setWidth, BitVec.getLsbD_ushiftRight, BitVec.getLsbD_append, BitVec.getLsbD_append,
    BitVec.getLsbD_append, highByte, BitVec.getLsbD_extractLsb']
  by_cases low : i < 8
  · have inside : 8 + i < 16 := by omega
    simp [less, low, inside]
  · have outside : ¬ 8 + i < 16 := by omega
    have place : 8 + i - 16 = i - 8 := by omega
    have second : i - 8 < 8 := by omega
    simp [less, low, outside, place, second]

theorem crc16_eq (char : PlainChar) (key : List UInt8) : (char.cHashCrc16 key).toBitVec = crc16Word key := by
  induction key using List.reverseRecOn with
  | nil => rfl
  | append_singleton key c ih =>
      rw [PlainChar.cHashCrc16, List.foldl_append, ← PlainChar.cHashCrc16, List.foldl_cons, List.foldl_nil,
        crc16Step_feedUp, ih, crc16Word, crc16Word, List.dropLast_concat, crc16Register_append, setWidth_word, shift_word]

theorem crc16Register_burst {key other : List UInt8} (burst : BurstOf 16 messageBitsDown key other) :
    crc16Register key ≠ crc16Register other := by
  obtain ⟨differ, before, left, right, after, first, second, same, fits⟩ := burst
  rw [crc16Register, crc16Register, first, second]
  apply Crc.feedUp_burst (by decide) _ same fits
  rintro rfl
  exact differ (flatMap_injective bitsDown_injective length_bitsDown (first.trans second.symm))

/-- Only the low half of the result is the checksum, for either kind of `char`; it tells apart keys that
differ within 16 consecutive bits. -/
theorem crc16_checksum (char : PlainChar) (key : List UInt8) :
    (char.cHashCrc16 key).toBitVec = crc16Word key ∧
    ∀ other, BurstOf 16 messageBitsDown key other →
      (char.cHashCrc16 key).toBitVec.setWidth 16 ≠ (char.cHashCrc16 other).toBitVec.setWidth 16 := by
  refine ⟨crc16_eq char key, ?_⟩
  intro other burst equal
  rw [crc16_eq, crc16_eq, crc16Word, crc16Word, setWidth_word, setWidth_word] at equal
  exact crc16Register_burst burst equal

-- The check value is 0x31c3; the byte above it is the high byte of the checksum of the first eight digits.
theorem crc16_checksum_digits : crc16Register [49, 50, 51, 52, 53, 54, 55, 56, 57] = 0x31c3#16 ∧
    PlainChar.signed.cHashCrc16 [49, 50, 51, 52, 53, 54, 55, 56, 57] ≠ 0x31c3 ∧
    (PlainChar.signed.cHashCrc16 [49, 50, 51]).toBitVec.setWidth 16 ≠
      (PlainChar.signed.cHashCrc16 [49, 52, 50]).toBitVec.setWidth 16 := by
  refine ⟨by decide +kernel, by decide +kernel, (crc16_checksum .signed [49, 50, 51]).2 [49, 52, 50] ⟨by decide, ?_⟩⟩
  exact ⟨bitsDown 49, bitsDown 50 ++ bitsDown 51, bitsDown 52 ++ bitsDown 50, [], by decide, by decide, by decide, by decide⟩

end SampleFs.Proof.CHash

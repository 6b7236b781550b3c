import Mathlib.Data.List.Basic
import Mathlib.Logic.Function.Iterate

/-!
# Cyclic redundancy checks

A register of any width that takes bits at its low end and divides by a polynomial with reflected
coefficients. The register is linear, it forgets nothing if the polynomial has its top coefficient,
and so no burst of errors that fits into it goes unnoticed.
-/

namespace SampleFs.Lib.Crc
variable {w : Nat} {poly : BitVec w}

def shift (poly s : BitVec w) : BitVec w := if s.getLsbD 0 then (s >>> 1) ^^^ poly else s >>> 1

def shifts (poly : BitVec w) (n : Nat) (s : BitVec w) : BitVec w := (shift poly)^[n] s

def bitWord (bit : Bool) : BitVec w := if bit then 1#w else 0#w

def feedBit (poly s : BitVec w) (bit : Bool) : BitVec w := shift poly (s ^^^ bitWord bit)

def feed (poly : BitVec w) (bits : List Bool) (s : BitVec w) : BitVec w := bits.foldl (feedBit poly) s

/-- The word with these bits, the first one lowest. -/
def pack : List Bool → BitVec w
  | [] => 0#w
  | bit :: rest => (pack rest <<< 1) ^^^ bitWord bit

/-! ## The register is linear -/

theorem shift_xor (s t : BitVec w) : shift poly (s ^^^ t) = shift poly s ^^^ shift poly t := by
  unfold shift
  rw [BitVec.getLsbD_xor, BitVec.ushiftRight_xor_distrib]
  cases s.getLsbD 0 <;> cases t.getLsbD 0
  · simp
  · simp [BitVec.xor_assoc]
  · simp only [Bool.bne_false, if_true, if_false, Bool.false_eq_true]
    ac_rfl
  · have cancels : (s >>> 1 ^^^ poly) ^^^ (t >>> 1 ^^^ poly) = (s >>> 1 ^^^ t >>> 1) ^^^ (poly ^^^ poly) := by ac_rfl
    simp [cancels]

theorem shifts_xor (n : Nat) (s t : BitVec w) : shifts poly n (s ^^^ t) = shifts poly n s ^^^ shifts poly n t := by
  induction n generalizing s t with
  | zero => rfl
  | succ n ih =>
      simp only [shifts, Function.iterate_succ_apply] at ih ⊢
      rw [shift_xor, ih]

/-! ## Bits that only move down -/

theorem shift_even {s : BitVec w} (even : s.getLsbD 0 = false) : shift poly s = s >>> 1 := by
  rw [shift, even]
  rfl

theorem shifts_high {n : Nat} {s : BitVec w} (clear : ∀ i < n, s.getLsbD i = false) : shifts poly n s = s >>> n := by
  induction n generalizing s with
  | zero => simp [shifts]
  | succ n ih =>
      have even : s.getLsbD 0 = false := clear 0 (Nat.zero_lt_succ n)
      have later : ∀ i < n, (s >>> 1).getLsbD i = false := by
        intro i less
        rw [BitVec.getLsbD_ushiftRight, Nat.add_comm]
        exact clear (i + 1) (by omega)
      rw [shifts, Function.iterate_succ_apply, shift_even even, ← shifts, ih later, ← BitVec.shiftRight_add, Nat.add_comm]

/-- The low bits are looked up, and the high ones come down. -/
theorem shifts_split (n : Nat) (s : BitVec w) :
    shifts poly n s = shifts poly n ((s.setWidth n).setWidth w) ^^^ (s >>> n) := by
  have parts : s = (s.setWidth n).setWidth w ^^^ ((s >>> n) <<< n) := by
    apply BitVec.eq_of_getLsbD_eq
    intro i less
    rw [BitVec.getLsbD_xor, BitVec.getLsbD_shiftLeft, BitVec.getLsbD_setWidth, BitVec.getLsbD_setWidth,
      BitVec.getLsbD_ushiftRight]
    by_cases low : i < n
    · simp [less, low]
    · simp [less, low, Nat.add_sub_cancel' (Nat.le_of_not_lt low)]
  have high : shifts poly n ((s >>> n) <<< n) = s >>> n := by
    rw [shifts_high (by simp +contextual)]
    apply BitVec.eq_of_getLsbD_eq
    intro i less
    rw [BitVec.getLsbD_ushiftRight, BitVec.getLsbD_shiftLeft, BitVec.getLsbD_ushiftRight]
    by_cases inside : n + i < w
    · simp [inside]
    · simp [inside, BitVec.getLsbD_of_ge s _ (Nat.le_of_not_lt inside)]
  nth_rewrite 1 [parts]
  rw [shifts_xor, high]

theorem getLsbD_pack {bits : List Bool} (i : Nat) (fits : i < w) :
    (pack bits : BitVec w).getLsbD i = bits.getD i false := by
  induction bits generalizing i with
  | nil => simp [pack]
  | cons bit rest ih =>
      rw [pack, BitVec.getLsbD_xor, BitVec.getLsbD_shiftLeft]
      cases i with
      | zero => cases bit <;> simp [bitWord, fits]
      | succ i =>
          have zero : (bitWord bit : BitVec w).getLsbD (i + 1) = false := by
            cases bit <;> simp [bitWord]
          rw [zero, List.getD_cons_succ]
          simpa [fits] using ih i (by omega)

theorem pack_injective {left right : List Bool} (same : left.length = right.length) (fits : left.length ≤ w)
    (words : (pack left : BitVec w) = pack right) : left = right := by
  apply List.ext_getElem same
  intro i inLeft inRight
  have bits : (pack left : BitVec w).getLsbD i = (pack right : BitVec w).getLsbD i := by rw [words]
  rw [getLsbD_pack i (by omega), getLsbD_pack i (by omega)] at bits
  simpa [inLeft, inRight] using bits

/-- Feeding bits one by one, or all of them at once and shifting them through. -/
theorem feed_eq_shifts {bits : List Bool} (fits : bits.length ≤ w) (s : BitVec w) :
    feed poly bits s = shifts poly bits.length (s ^^^ pack bits) := by
  induction bits generalizing s with
  | nil => simp [feed, shifts, pack]
  | cons bit rest ih =>
      have inside : rest.length < w := fits
      have moved : shift poly (pack rest <<< 1 : BitVec w) = pack rest := by
        rw [shift_even (by simp)]
        apply BitVec.eq_of_getLsbD_eq
        intro i less
        rw [BitVec.getLsbD_ushiftRight, BitVec.getLsbD_shiftLeft]
        by_cases top : 1 + i < w
        · simp [top]
        · rw [getLsbD_pack i less, List.getD_eq_getElem?_getD, List.getElem?_eq_none (by omega)]
          simp [top]
      have step : shift poly (s ^^^ pack (bit :: rest)) = feedBit poly s bit ^^^ pack rest := by
        rw [pack, feedBit, ← BitVec.xor_assoc, BitVec.xor_assoc s, BitVec.xor_comm (pack rest <<< 1), ← BitVec.xor_assoc,
          shift_xor, moved]
      rw [feed, List.foldl_cons, ← feed, ih (by omega), List.length_cons, shifts, shifts, Function.iterate_succ_apply, step]

/-! ## Nothing is forgotten -/

section
variable (top : poly.msb = true)
include top

theorem shift_ne_zero {s : BitVec w} (some : s ≠ 0#w) : shift poly s ≠ 0#w := by
  intro zero
  have pos : 0 < w := by
    apply Nat.pos_of_ne_zero
    rintro rfl
    exact some (BitVec.eq_of_zero_length rfl)
  cases odd : s.getLsbD 0 with
  | true =>
      -- the top coefficient has been added, and nothing else is there
      have sign := congrArg BitVec.msb zero
      rw [shift, odd, if_pos rfl, BitVec.msb_xor, top] at sign
      rw [BitVec.msb_eq_getLsbD_last, BitVec.getLsbD_ushiftRight, BitVec.getLsbD_of_ge s _ (by omega)] at sign
      simp at sign
  | false =>
      rw [shift_even odd] at zero
      apply some
      apply BitVec.eq_of_getLsbD_eq
      intro i less
      cases i with
      | zero => simpa using odd
      | succ i =>
          have moved := congrArg (fun word => BitVec.getLsbD word i) zero
          simpa [Nat.add_comm] using moved

theorem shift_injective : Function.Injective (shift poly) := by
  intro s t same
  by_contra differ
  apply shift_ne_zero top (s := s ^^^ t)
  · rwa [ne_eq, BitVec.xor_eq_zero_iff]
  · rw [shift_xor, same, BitVec.xor_self]

theorem shifts_injective (n : Nat) : Function.Injective (shifts poly n) := (shift_injective top).iterate n

theorem feed_injective (bits : List Bool) : Function.Injective (feed poly bits) := by
  induction bits with
  | nil => exact Function.injective_id
  | cons bit rest ih =>
      intro s t same
      have words := shift_injective top (ih same)
      exact (BitVec.xor_left_inj _).mp words

/-- Two messages that differ only within a window of the width of the register. -/
theorem feed_burst {before left right after : List Bool} (s : BitVec w) (same : left.length = right.length)
    (fits : left.length ≤ w) (differ : left ≠ right) :
    feed poly (before ++ left ++ after) s ≠ feed poly (before ++ right ++ after) s := by
  intro equal
  simp only [feed, List.foldl_append] at equal
  have windows : feed poly left (feed poly before s) = feed poly right (feed poly before s) :=
    feed_injective top after equal
  generalize feed poly before s = reached at windows
  rw [feed_eq_shifts fits, feed_eq_shifts (same ▸ fits), same] at windows
  have words := (BitVec.xor_right_inj _).mp (shifts_injective top _ windows)
  exact differ (pack_injective same fits words)

end

/-! ## Registers that take bits at the top

The same register read from the other end. -/

def shiftUp (poly s : BitVec w) : BitVec w := if s.msb then (s <<< 1) ^^^ poly else s <<< 1

def topWord (bit : Bool) : BitVec w := if bit then 1#w <<< (w - 1) else 0#w

def feedBitUp (poly s : BitVec w) (bit : Bool) : BitVec w := shiftUp poly (s ^^^ topWord bit)

def feedUp (poly : BitVec w) (bits : List Bool) (s : BitVec w) : BitVec w := bits.foldl (feedBitUp poly) s

/-- The word with these bits, the first one highest. -/
def packUp : List Bool → BitVec w
  | [] => 0#w
  | bit :: rest => (packUp rest >>> 1) ^^^ topWord bit

theorem reverse_xor (s t : BitVec w) : (s ^^^ t).reverse = s.reverse ^^^ t.reverse := by
  apply BitVec.eq_of_getLsbD_eq
  intro i less
  simp [BitVec.getLsbD_reverse, BitVec.getMsbD_xor]

theorem reverse_shiftLeft (s : BitVec w) (n : Nat) : (s <<< n).reverse = s.reverse >>> n := by
  apply BitVec.eq_of_getLsbD_eq
  intro i less
  rw [BitVec.getLsbD_reverse, BitVec.getLsbD_ushiftRight, BitVec.getLsbD_reverse, BitVec.getMsbD_shiftLeft, Nat.add_comm]

theorem reverse_bitWord (bit : Bool) : (bitWord bit : BitVec w).reverse = topWord bit := by
  cases bit with
  | false => simp [bitWord, topWord]
  | true =>
      apply BitVec.eq_of_getLsbD_eq
      intro i less
      rw [BitVec.getLsbD_reverse, BitVec.getMsbD_eq_getLsbD]
      have some : 0 < w := by omega
      by_cases top : i = w - 1
      · subst top
        simp [bitWord, topWord, some]
      · have low : i < w - 1 := by omega
        have above : w - 1 - i ≠ 0 := by omega
        simp [bitWord, topWord, less, low, above]

theorem reverse_pack (bits : List Bool) : (pack bits : BitVec w).reverse = packUp bits := by
  induction bits with
  | nil => simp [pack, packUp]
  | cons bit rest ih => rw [pack, packUp, reverse_xor, reverse_shiftLeft, ih, reverse_bitWord]

theorem getLsbD_packUp {bits : List Bool} (i : Nat) (fits : i < w) :
    (packUp bits : BitVec w).getLsbD i = bits.getD (w - 1 - i) false := by
  rw [← reverse_pack, BitVec.getLsbD_reverse, BitVec.getMsbD_eq_getLsbD, getLsbD_pack _ (by omega)]
  simp [fits]

theorem reverse_shiftUp (s : BitVec w) : (shiftUp poly s).reverse = shift poly.reverse s.reverse := by
  have top : s.reverse.getLsbD 0 = s.msb := by rw [BitVec.getLsbD_reverse, BitVec.msb]
  rw [shiftUp, shift, top]
  cases s.msb with
  | false => exact reverse_shiftLeft s 1
  | true =>
      rw [if_pos rfl, if_pos rfl, reverse_xor, reverse_shiftLeft]

theorem reverse_shiftsUp (n : Nat) (s : BitVec w) :
    ((shiftUp poly)^[n] s).reverse = shifts poly.reverse n s.reverse := by
  induction n generalizing s with
  | zero => rfl
  | succ n ih =>
      rw [Function.iterate_succ_apply, ih, reverse_shiftUp]
      rfl

theorem reverse_feedUp (bits : List Bool) (s : BitVec w) :
    (feedUp poly bits s).reverse = feed poly.reverse bits s.reverse := by
  induction bits generalizing s with
  | nil => rfl
  | cons bit rest ih =>
      rw [feedUp, List.foldl_cons, ← feedUp, ih, feedBitUp, reverse_shiftUp, reverse_xor, ← reverse_bitWord,
        BitVec.reverse_reverse_eq]
      rfl

theorem low_reverse {n : Nat} (fits : n ≤ w) (s : BitVec w) :
    (s.reverse.setWidth n).setWidth w = ((s >>> (w - n)) <<< (w - n)).reverse := by
  apply BitVec.eq_of_getLsbD_eq
  intro i less
  rw [BitVec.getLsbD_setWidth, BitVec.getLsbD_setWidth, BitVec.getLsbD_reverse, BitVec.getLsbD_reverse,
    BitVec.getMsbD_eq_getLsbD, BitVec.getMsbD_eq_getLsbD, BitVec.getLsbD_shiftLeft, BitVec.getLsbD_ushiftRight]
  by_cases low : i < n
  · have place : w - n + (w - 1 - i - (w - n)) = w - 1 - i := by omega
    have inside : ¬ w - 1 - i < w - n := by omega
    simp [less, low, place, inside]
    omega
  · have outside : w - 1 - i < w - n := by omega
    simp [low, outside]

/-- The high bits are looked up, and the low ones come up. -/
theorem feedUp_lookup {bits : List Bool} (fits : bits.length ≤ w) (s : BitVec w) :
    feedUp poly bits s =
      (shiftUp poly)^[bits.length] (((s ^^^ packUp bits) >>> (w - bits.length)) <<< (w - bits.length)) ^^^
        ((s ^^^ packUp bits) <<< bits.length) := by
  have word : s.reverse ^^^ pack bits = (s ^^^ packUp bits).reverse := by
    rw [reverse_xor, ← reverse_pack, BitVec.reverse_reverse_eq]
  rw [← BitVec.reverse_reverse_eq (x := feedUp poly bits s), reverse_feedUp, feed_eq_shifts fits, word, shifts_split,
    low_reverse fits, ← reverse_shiftsUp, ← reverse_shiftLeft, ← reverse_xor, BitVec.reverse_reverse_eq]

theorem feedUp_burst (low : poly.getLsbD 0 = true) {before left right after : List Bool} (s : BitVec w)
    (same : left.length = right.length) (fits : left.length ≤ w) (differ : left ≠ right) :
    feedUp poly (before ++ left ++ after) s ≠ feedUp poly (before ++ right ++ after) s := by
  intro equal
  have top : poly.reverse.msb = true := BitVec.msb_reverse.trans low
  have apart : feed poly.reverse (before ++ left ++ after) s.reverse ≠
      feed poly.reverse (before ++ right ++ after) s.reverse := feed_burst top s.reverse same fits differ
  apply apart
  rw [← reverse_feedUp, ← reverse_feedUp, equal]

end SampleFs.Lib.Crc

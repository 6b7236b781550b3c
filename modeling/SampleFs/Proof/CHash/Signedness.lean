import Mathlib.Data.List.Basic
import Mathlib.Data.Nat.ModEq
import Mathlib.Dynamics.PeriodicPts.Lemmas
import Mathlib.Tactic.Positivity
import SampleFs.Base.CHash
import SampleFs.Lib.Words

namespace SampleFs.Proof.CHash
open Lib Base

/-- The functions that widen a plain `char`. -/
inductive CharHash where
  | fnv1_64
  | fnv1a_64
  | fnv1_32
  | fnv1a_32
  | oneAtATime
  | hsieh
  | dictDefault
deriving DecidableEq, Repr

def CharHash.hash (char : PlainChar) : CharHash → List UInt8 → UInt32
  | fnv1_64 => char.cHashFnv1_64
  | fnv1a_64 => char.cHashFnv1a_64
  | fnv1_32 => char.cHashFnv1_32
  | fnv1a_32 => char.cHashFnv1a_32
  | oneAtATime => char.cHashOneAtATime
  | hsieh => char.cHashHsieh
  | dictDefault => char.dictDefaultHashFn

/-- Both kinds of `char` give one hash. -/
def CharHash.Agrees (function : CharHash) (key : List UInt8) : Prop :=
  function.hash .signed key = function.hash .unsigned key
deriving Decidable

/-- The bytes that a function reads as a plain `char`. -/
def CharHash.widened (key : List UInt8) : CharHash → List UInt8
  | hsieh | dictDefault => if key.length % 4 = 3 then key.getLast?.toList else []
  | _ => key

def highs (key : List UInt8) : Nat := key.countP fun c => 0x80 ≤ c

/-! ## Bytes -/

theorem toUInt32_low {c : UInt8} (low : c < 0x80) : PlainChar.signed.toUInt32 c = PlainChar.unsigned.toUInt32 c := by
  have small : c.toNat < 2 ^ (8 - 1) := UInt8.lt_iff_toNat_lt.mp low
  rw [PlainChar.toUInt32, PlainChar.toUInt32, PlainChar.value, PlainChar.value, toSigned_small small]

theorem toUInt32_mod (c : UInt8) : (PlainChar.signed.toUInt32 c).toNat % 512 =
    (PlainChar.unsigned.toUInt32 c).toNat % 512 ^^^ if 0x80 ≤ c then 256 else 0 := by
  have every : ∀ n : Fin 256, (PlainChar.signed.toUInt32 (UInt8.ofFin n)).toNat % 512 =
      (PlainChar.unsigned.toUInt32 (UInt8.ofFin n)).toNat % 512 ^^^ if 0x80 ≤ UInt8.ofFin n then 256 else 0 := by
    decide +kernel
  exact every c.toFin

theorem toUInt64_toUInt32 (char : PlainChar) (c : UInt8) : (char.toUInt64 c).toUInt32 = char.toUInt32 c := by
  have every : ∀ n : Fin 256, (char.toUInt64 (UInt8.ofFin n)).toUInt32 = char.toUInt32 (UInt8.ofFin n) := by
    cases char <;> decide +kernel
  exact every c.toFin

theorem cHashFnv1_64_eq (char : PlainChar) (key : List UInt8) :
    char.cHashFnv1_64 key = char.fnv1 PlainChar.fnv64Prime.toUInt32 PlainChar.fnv64Init.toUInt32 key := by
  have narrowed (hash : UInt64) :
      (key.foldl (fun hash c => (hash * PlainChar.fnv64Prime) ^^^ char.toUInt64 c) hash).toUInt32 =
        char.fnv1 PlainChar.fnv64Prime.toUInt32 hash.toUInt32 key := by
    induction key generalizing hash with
    | nil => rfl
    | cons c rest ih =>
        rw [List.foldl_cons, ih, UInt64.toUInt32_xor, UInt64.toUInt32_mul, toUInt64_toUInt32]
        rfl
  exact narrowed _

/-! ## Keys of bytes below 0x80 -/

section
variable {key : List UInt8}

theorem fnv1_low (low : ∀ c ∈ key, c < 0x80) (prime init : UInt32) :
    PlainChar.signed.fnv1 prime init key = PlainChar.unsigned.fnv1 prime init key := by
  apply List.foldl_ext
  intro hash c member
  rw [toUInt32_low (low c member)]

theorem fnv1a_low (low : ∀ c ∈ key, c < 0x80) (prime init : UInt32) :
    PlainChar.signed.fnv1a prime init key = PlainChar.unsigned.fnv1a prime init key := by
  apply List.foldl_ext
  intro hash c member
  rw [toUInt32_low (low c member)]

theorem oneAtATime_low (low : ∀ c ∈ key, c < 0x80) :
    PlainChar.signed.cHashOneAtATime key = PlainChar.unsigned.cHashOneAtATime key := by
  have folds : key.foldl PlainChar.signed.oneAtATimeStep 0 = key.foldl PlainChar.unsigned.oneAtATimeStep 0 := by
    apply List.foldl_ext
    intro hash c member
    rw [PlainChar.oneAtATimeStep, toUInt32_low (low c member), PlainChar.oneAtATimeStep]
  rw [PlainChar.cHashOneAtATime, folds, PlainChar.cHashOneAtATime]

theorem hsieh_low (low : key.length % 4 = 3 → ∀ c ∈ key.getLast?, c < 0x80) :
    PlainChar.signed.hsieh key = PlainChar.unsigned.hsieh key := by
  have words (hash : UInt32) : PlainChar.signed.hsiehWords key hash = PlainChar.unsigned.hsiehWords key hash := by
    fun_induction PlainChar.hsiehWords PlainChar.signed key hash with
    | case1 a b c d rest hash h tmp h' ih =>
        rw [PlainChar.hsiehWords]
        apply ih
        intro three
        obtain ⟨e, rest, rfl⟩ := List.exists_cons_of_ne_nil (show rest ≠ [] by rintro rfl; simp at three)
        have whole : (a :: b :: c :: d :: e :: rest).length % 4 = 3 := by
          simp only [List.length_cons] at three ⊢
          omega
        simpa only [List.getLast?_cons_cons] using low whole
    | case2 a b c hash =>
        rw [PlainChar.hsiehWords, ← toUInt32_low (low rfl c rfl)]
    | case3 => rfl
    | case4 => rfl
    | case5 => rfl
  rw [PlainChar.hsieh, words, PlainChar.hsieh]

theorem hsieh_widened (low : ∀ c ∈ CharHash.hsieh.widened key, c < 0x80) :
    PlainChar.signed.hsieh key = PlainChar.unsigned.hsieh key := by
  apply hsieh_low
  intro three c last
  apply low
  simpa [CharHash.widened, three] using last

theorem agrees_low {function : CharHash} (low : ∀ c ∈ function.widened key, c < 0x80) : function.Agrees key := by
  cases function with
  | fnv1_64 =>
      change PlainChar.signed.cHashFnv1_64 key = PlainChar.unsigned.cHashFnv1_64 key
      rw [cHashFnv1_64_eq, cHashFnv1_64_eq]
      exact fnv1_low low ..
  | fnv1a_64 => exact fnv1a_low low ..
  | fnv1_32 => exact fnv1_low low ..
  | fnv1a_32 => exact fnv1a_low low ..
  | oneAtATime => exact oneAtATime_low low
  | hsieh => exact hsieh_widened low
  | dictDefault => exact hsieh_widened low

theorem widened_subset (function : CharHash) : function.widened key ⊆ key := by
  intro c member
  cases function with
  | fnv1_64 | fnv1a_64 | fnv1_32 | fnv1a_32 | oneAtATime => exact member
  | hsieh | dictDefault =>
      simp only [CharHash.widened] at member
      split at member
      · exact List.mem_of_getLast? (by simpa using member)
      · cases member

end

/-! ## Bit 8 counts the other bytes -/

/-- The two runs agree in bits 0 to 7, and in bit 8 unless an odd number of high bytes has been read. -/
def Twisted (odd : Bool) (unsigned signed : UInt32) : Prop :=
  signed.toNat % 512 = unsigned.toNat % 512 ^^^ if odd then 256 else 0

theorem xor_256 (x : Nat) : x % 512 ^^^ 256 = (x + 256) % 512 := by
  have every : ∀ n : Fin 512, n.val ^^^ 256 = (n.val + 256) % 512 := by decide +kernel
  rw [← Nat.mod_add_mod]
  exact every ⟨x % 512, Nat.mod_lt _ (by decide)⟩

section
variable {odd : Bool} {u s : UInt32}

theorem Twisted.mul (twisted : Twisted odd u s) {prime : UInt32} (oddPrime : prime.toNat % 2 = 1) :
    Twisted odd (u * prime) (s * prime) := by
  have low (x : UInt32) : (x * prime).toNat % 512 = x.toNat * prime.toNat % 512 := by
    rw [UInt32.toNat_mul, Nat.mod_mod_of_dvd _ (by decide)]
  unfold Twisted at twisted ⊢
  rw [low, low, ← Nat.mod_mul_mod, twisted]
  cases odd with
  | false =>
      simp only [Bool.false_eq_true, if_false, Nat.xor_zero]
      rw [Nat.mod_mul_mod]
  | true =>
      simp only [if_true]
      rw [xor_256, xor_256, Nat.mod_mul_mod, Nat.add_mul]
      omega

theorem Twisted.read (twisted : Twisted odd u s) (c : UInt8) :
    Twisted (odd ^^ decide (0x80 ≤ c)) (u ^^^ PlainChar.unsigned.toUInt32 c) (s ^^^ PlainChar.signed.toUInt32 c) := by
  have low (x y : UInt32) : (x ^^^ y).toNat % 512 = x.toNat % 512 ^^^ y.toNat % 512 := by
    rw [UInt32.toNat_xor]
    exact Nat.xor_mod_two_pow (n := 9)
  have flips (b d : Bool) : (if (b ^^ d) then 256 else 0) = (if b then 256 else 0) ^^^ (if d then 256 else 0 : Nat) := by
    cases b <;> cases d <;> rfl
  unfold Twisted at twisted ⊢
  rw [low, low, twisted, toUInt32_mod, flips]
  simp only [decide_eq_true_eq]
  ac_rfl

theorem Twisted.even (twisted : Twisted odd u u) : odd = false := by
  cases odd with
  | false => rfl
  | true =>
      have moved := twisted.trans (xor_256 _)
      omega

end

section
variable (step : PlainChar → UInt32 → UInt8 → UInt32)
  (steps : ∀ {odd u s}, Twisted odd u s → ∀ c,
    Twisted (odd ^^ decide (0x80 ≤ c)) (step .unsigned u c) (step .signed s c))
include steps

theorem Twisted.foldl {odd : Bool} {u s : UInt32} (twisted : Twisted odd u s) (key : List UInt8) :
    Twisted (odd ^^ decide (highs key % 2 = 1)) (key.foldl (step .unsigned) u) (key.foldl (step .signed) s) := by
  induction key generalizing odd u s with
  | nil => simpa [highs] using twisted
  | cons c rest ih =>
      have counted : (odd ^^ decide (highs (c :: rest) % 2 = 1)) =
          ((odd ^^ decide (0x80 ≤ c)) ^^ decide (highs rest % 2 = 1)) := by
        rw [Bool.xor_assoc]
        congr 1
        unfold highs
        by_cases high : 0x80 ≤ c
        · rw [List.countP_cons_of_pos (by simpa using high)]
          rcases Nat.mod_two_eq_zero_or_one (List.countP (fun c => 0x80 ≤ c) rest) with even | uneven
          · simp [high, even, Nat.add_mod]
          · simp [high, uneven, Nat.add_mod]
        · rw [List.countP_cons_of_neg (by simpa using high)]
          simp [high]
      rw [counted, List.foldl_cons, List.foldl_cons]
      exact ih (steps twisted c)

theorem even_of_foldl {init : UInt32} {key : List UInt8}
    (equal : key.foldl (step .signed) init = key.foldl (step .unsigned) init) : Even (highs key) := by
  have start : Twisted false init init := by simp [Twisted]
  have twisted := Twisted.foldl step steps start key
  rw [equal] at twisted
  have even := twisted.even
  simp only [Bool.false_bne, decide_eq_false_iff_not] at even
  rw [Nat.even_iff]
  omega

end

section
variable {prime init : UInt32} {key : List UInt8} (oddPrime : prime.toNat % 2 = 1)
include oddPrime

theorem fnv1_even (equal : PlainChar.signed.fnv1 prime init key = PlainChar.unsigned.fnv1 prime init key) :
    Even (highs key) :=
  even_of_foldl (fun char hash c => (hash * prime) ^^^ char.toUInt32 c)
    (fun twisted c => (twisted.mul oddPrime).read c) equal

theorem fnv1a_even (equal : PlainChar.signed.fnv1a prime init key = PlainChar.unsigned.fnv1a prime init key) :
    Even (highs key) :=
  even_of_foldl (fun char hash c => (hash ^^^ char.toUInt32 c) * prime)
    (fun twisted c => (twisted.read c).mul oddPrime) equal

end

def fnvHashes : List CharHash := [.fnv1_64, .fnv1a_64, .fnv1_32, .fnv1a_32]

theorem even_of_agrees {function : CharHash} (fnv : function ∈ fnvHashes) {key : List UInt8}
    (agrees : function.Agrees key) : Even (highs key) := by
  simp only [fnvHashes, List.mem_cons, List.not_mem_nil, or_false] at fnv
  rcases fnv with rfl | rfl | rfl | rfl
  · change PlainChar.signed.cHashFnv1_64 key = PlainChar.unsigned.cHashFnv1_64 key at agrees
    rw [cHashFnv1_64_eq, cHashFnv1_64_eq] at agrees
    exact fnv1_even (by decide) agrees
  · exact fnv1a_even (by decide) agrees
  · exact fnv1_even (by decide) agrees
  · exact fnv1a_even (by decide) agrees

theorem oneAtATime_thrice (c : UInt8) (agrees : CharHash.oneAtATime.Agrees [c, c, c]) : c < 0x80 := by
  have every : ∀ n : Fin 256, CharHash.oneAtATime.Agrees [UInt8.ofFin n, UInt8.ofFin n, UInt8.ofFin n] →
      UInt8.ofFin n < 0x80 := by
    decide +kernel
  exact every c.toFin agrees

theorem hsieh_thrice (c : UInt8) (agrees : CharHash.hsieh.Agrees [c, c, c]) : c < 0x80 := by
  have every : ∀ n : Fin 256, CharHash.hsieh.Agrees [UInt8.ofFin n, UInt8.ofFin n, UInt8.ofFin n] →
      UInt8.ofFin n < 0x80 := by
    decide +kernel
  exact every c.toFin agrees

/-- Three bytes reach every place where a plain `char` is widened. -/
theorem agrees_thrice {function : CharHash} {c : UInt8} (agrees : function.Agrees [c, c, c]) : c < 0x80 := by
  by_contra high
  have three : highs [c, c, c] = 3 := by simp [highs, UInt8.not_lt.mp high]
  cases function with
  | fnv1_64 | fnv1a_64 | fnv1_32 | fnv1a_32 =>
      have even := even_of_agrees (by decide) agrees
      rw [three] at even
      exact absurd even (by decide)
  | oneAtATime => exact high (oneAtATime_thrice c agrees)
  | hsieh | dictDefault => exact high (hsieh_thrice c agrees)

/-! ## High bytes that cancel

Each step of a loop permutes the words, so a key that repeats one byte often enough brings both
runs back to their start. -/

theorem mul_injective {factor inverse : UInt32} (unit : factor * inverse = 1) :
    Function.Injective fun x : UInt32 => x * factor :=
  injective_of_toBitVec (fun _ => rfl) (mul_unit_injective (congrArg UInt32.toBitVec unit))

theorem xor_injective (word : UInt32) : Function.Injective fun x : UInt32 => x ^^^ word := by
  intro x y equal
  exact (UInt32.xor_left_inj word).mp equal

theorem oneAtATimeMix_injective : Function.Injective fun value : UInt32 =>
    let value := value + (value <<< 10)
    value ^^^ (value >>> 6) :=
  injective_of_toBitVec (fun _ => rfl)
    ((xorShift_injective (show 0 < 6 by decide)).comp (addShift_injective (show 0 < 10 by decide)))

theorem oneAtATimeStep_injective (char : PlainChar) (c : UInt8) :
    Function.Injective fun value => char.oneAtATimeStep value c :=
  fun _ _ equal => (UInt32.add_left_inj _).mp (oneAtATimeMix_injective equal)

theorem returns_everywhere : ∃ length : Nat, 0 < length ∧ length % 4 = 0 ∧
    ∀ (step : UInt32 → UInt8 → UInt32) (c : UInt8), (Function.Injective fun word => step word c) →
      ∀ init, (List.replicate length c).foldl step init = init := by
  have finite : Finite UInt32 := Finite.of_injective UInt32.toFin fun _ _ => UInt32.toFin_inj.mp
  have := Fintype.ofFinite UInt32
  refine ⟨(Fintype.card UInt32).factorial * 4, by positivity, Nat.mul_mod_left .., fun step c injective init => ?_⟩
  have repeats (length : Nat) (word : UInt32) :
      (List.replicate length c).foldl step word = (fun word => step word c)^[length] word := by
    induction length generalizing word with
    | zero => rfl
    | succ length ih => exact ih _
  have once := Function.injective_iff_iterate_factorial_card_eq_id.mp injective
  rw [repeats, Function.iterate_mul, once, Function.iterate_id, id]

theorem fnv1Step_injective (char : PlainChar) {prime inverse : UInt32} (unit : prime * inverse = 1) (c : UInt8) :
    Function.Injective fun hash => (hash * prime) ^^^ char.toUInt32 c :=
  (xor_injective _).comp (mul_injective unit)

theorem fnv1aStep_injective (char : PlainChar) {prime inverse : UInt32} (unit : prime * inverse = 1) (c : UInt8) :
    Function.Injective fun hash => (hash ^^^ char.toUInt32 c) * prime :=
  (mul_injective unit).comp (xor_injective _)

theorem cancels : ∃ key, 0 < highs key ∧ ∀ function : CharHash, function.Agrees key := by
  obtain ⟨length, positive, words, returns⟩ := returns_everywhere
  have unit64 : PlainChar.fnv64Prime.toUInt32 * 2952172923 = 1 := by decide
  have unit32 : PlainChar.fnv32Prime * 899433627 = 1 := by decide
  have fnv1 {prime inverse : UInt32} (unit : prime * inverse = 1) (char : PlainChar) (init : UInt32) :
      char.fnv1 prime init (List.replicate length 0x80) = init :=
    returns _ _ (fnv1Step_injective char unit _) init
  have fnv1a {prime inverse : UInt32} (unit : prime * inverse = 1) (char : PlainChar) (init : UInt32) :
      char.fnv1a prime init (List.replicate length 0x80) = init :=
    returns _ _ (fnv1aStep_injective char unit _) init
  have oneAtATime (char : PlainChar) : (List.replicate length 0x80).foldl char.oneAtATimeStep 0 = 0 :=
    returns _ _ (oneAtATimeStep_injective char _) 0
  have hsieh : PlainChar.signed.hsieh (List.replicate length 0x80) =
      PlainChar.unsigned.hsieh (List.replicate length 0x80) := by
    apply hsieh_low
    intro three
    rw [List.length_replicate, words] at three
    cases three
  refine ⟨List.replicate length 0x80, ?_, fun function => ?_⟩
  · simpa [highs] using positive.ne'
  cases function with
  | fnv1_64 =>
      change PlainChar.signed.cHashFnv1_64 _ = PlainChar.unsigned.cHashFnv1_64 _
      rw [cHashFnv1_64_eq, cHashFnv1_64_eq, fnv1 unit64, fnv1 unit64]
  | fnv1a_64 => exact (fnv1a unit64 ..).trans (fnv1a unit64 ..).symm
  | fnv1_32 => exact (fnv1 unit32 ..).trans (fnv1 unit32 ..).symm
  | fnv1a_32 => exact (fnv1a unit32 ..).trans (fnv1a unit32 ..).symm
  | oneAtATime =>
      change PlainChar.signed.cHashOneAtATime _ = PlainChar.unsigned.cHashOneAtATime _
      rw [PlainChar.cHashOneAtATime, oneAtATime, PlainChar.cHashOneAtATime, oneAtATime]
  | hsieh => exact hsieh
  | dictDefault => exact hsieh

/-- A function agrees on a key none of whose widened bytes is 0x80 or above, and on all keys over an
alphabet exactly where the alphabet has no such byte. On a single key an uneven number of them always
shows in the FNV hashes, and an even number can cancel. -/
theorem char_hashes (function : CharHash) :
    (∀ key : List UInt8, (∀ c ∈ function.widened key, c < 0x80) → function.Agrees key) ∧
    (∀ alphabet : Set UInt8,
      (∀ key : List UInt8, (∀ c ∈ key, c ∈ alphabet) → function.Agrees key) ↔ ∀ c ∈ alphabet, c < 0x80) ∧
    (function ∈ fnvHashes → ∀ key, function.Agrees key → Even (highs key)) ∧
    ∃ key, 0 < highs key ∧ ∀ other : CharHash, other.Agrees key := by
  refine ⟨fun key => agrees_low, fun alphabet => ⟨fun agrees c member => ?_, fun low key drawn => ?_⟩,
    fun fnv key => even_of_agrees fnv, cancels⟩
  · apply agrees_thrice
    apply agrees
    simp [member]
  · apply agrees_low
    intro c member
    exact low c (drawn c (widened_subset function member))

/-- The name "aé" in UTF-8. -/
theorem char_hashes_differ : ¬ ∃ function : CharHash, function.Agrees [0x61, 0xc3, 0xa9] := by
  rintro ⟨function, agrees⟩
  revert agrees
  cases function <;> decide

end SampleFs.Proof.CHash

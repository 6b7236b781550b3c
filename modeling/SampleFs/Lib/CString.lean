import Mathlib.Data.List.Basic
import Mathlib.Tactic.Common

/-!
# C strings

A string is the bytes before its terminating NUL; the terminator is what `headD 0` reads past the end.
-/

namespace SampleFs.Lib

structure CString where
  bytes : List UInt8
  noNul : 0 ∉ bytes
deriving DecidableEq, Repr

namespace CString

theorem ext {a b : CString} (same : a.bytes = b.bytes) : a = b := by
  cases a
  cases b
  cases same
  rfl

def strlen (s : CString) : Nat := s.bytes.length

def take (s : CString) (n : Nat) : CString :=
  ⟨s.bytes.take n, fun member => s.noNul (List.mem_of_mem_take member)⟩

def append (a b : CString) : CString :=
  ⟨a.bytes ++ b.bytes, fun member => (List.mem_append.mp member).elim a.noNul b.noNul⟩

instance : Append CString := ⟨append⟩

-- keeps what fits beside the terminator
def snprintf (size : Nat) (text : CString) : CString := text.take (size - 1)

end CString

def strncmp : List UInt8 → List UInt8 → Nat → Int
  | _, _, 0 => 0
  | a, b, n + 1 =>
      if a.headD 0 ≠ b.headD 0 then (a.headD 0).toNat - (b.headD 0).toNat
      else if a.headD 0 = 0 then 0
      else strncmp a.tail b.tail n

theorem strncmp_eq_zero {a b : List UInt8} (ha : 0 ∉ a) (hb : 0 ∉ b) (n : Nat) :
    strncmp a b n = 0 ↔ a.take n = b.take n := by
  induction n generalizing a b with
  | zero => simp [strncmp]
  | succ n ih =>
      have differ (x y : UInt8) (ne : x ≠ y) : (x.toNat : Int) - y.toNat ≠ 0 := by
        intro zero
        exact ne (UInt8.toNat_inj.mp (by omega))
      cases a with
      | nil =>
          cases b with
          | nil => simp [strncmp]
          | cons y b =>
              have ne : (0 : UInt8) ≠ y := fun same => hb (by simp [same])
              have gap := differ 0 y ne
              simpa [strncmp, ne] using gap
      | cons x a =>
          have nonzero : x ≠ 0 := fun same => ha (by simp [same])
          cases b with
          | nil =>
              have gap := differ x 0 nonzero
              simpa [strncmp, nonzero] using gap
          | cons y b =>
              by_cases same : x = y
              · subst same
                have rest := @ih a b (fun m => ha (by simp [m])) (fun m => hb (by simp [m]))
                simpa [strncmp, nonzero] using rest
              · have gap := differ x y same
                simpa [strncmp, same] using gap

theorem strncmp_strlen (a b : CString) :
    strncmp a.bytes b.bytes b.strlen = 0 ↔ b.bytes <+: a.bytes := by
  rw [strncmp_eq_zero a.noNul b.noNul, CString.strlen, List.take_length, List.prefix_iff_eq_take,
    eq_comm]

end SampleFs.Lib

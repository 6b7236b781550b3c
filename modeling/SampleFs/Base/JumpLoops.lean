import SampleFs.Lib.Exec
import SampleFs.Base.JumpHash

/-!
# The loops of jump consistent hashing

The three copies in the integer types of the source. They differ in the type of the count, and with it
in how `j` is compared, and in the type of `value`. The expression in `double` is a parameter.
-/

namespace SampleFs.Base.JumpLoops
open Lib

structure JumpState where
  key : UInt64
  b : Int64
  j : Int64
deriving DecidableEq, Repr

section
variable (step : Int64 → UInt64 → Int64)

def jumpPass (inside : Int64 → Bool) (s : JumpState) : Exec Fault (Pass JumpState Int64) :=
  if inside s.j then
    let key := s.key * 2862933555777941757 + 1
    return .again { key, b := s.j, j := step s.j key }
  else return .done s.b

def jumpLoop (inside : Int64 → Bool) (key : UInt64) (fuel : Nat) : Exec Fault Int64 :=
  Exec.loop (jumpPass step inside) fuel { key, b := -1, j := 0 }

-- `(b < 0) ? (~b + 1) : b`
def magnitude (b : Int64) : Int64 := if b < 0 then ~~~b + 1 else b

-- an `int64_t` compared with a `uint64_t` is taken for unsigned
def cHashmapJumpConsistent (key numBuckets : UInt64) (fuel : Nat) : Exec Fault UInt64 := do
  let b ← jumpLoop step (fun j => j.toUInt64 < numBuckets) key fuel
  return (magnitude b).toUInt64

def dictJumpConsistent (key : UInt64) (numBuckets : UInt32) (fuel : Nat) : Exec Fault UInt64 := do
  let b ← jumpLoop step (fun j => j < numBuckets.toUInt64.toInt64) key fuel
  return (magnitude b).toUInt64.toUInt32.toUInt64

def cHashJumpConsistent (key : UInt64) (numBuckets : Int32) (fuel : Nat) : Exec Fault UInt32 := do
  let b ← jumpLoop step (fun j => j < numBuckets.toInt64) key fuel
  return (magnitude b).toUInt64.toUInt32

end

-- `(int64_t)((b + 1) * ((double)(1LL << 31) / (double)((key >> 33) + 1)))`
def doubleStep (b : Int64) (key : UInt64) : Int64 := Int64.ofNat (jumpStep b.toInt.toNat key.toNat)

end SampleFs.Base.JumpLoops

import SampleFs.Lib.CInt
import SampleFs.Lib.CString
import SampleFs.Lib.Exec

namespace SampleFs.Base
open Lib

/-! ## The C library -/

def isdigitChar (c : UInt8) : Bool := decide (48 ≤ c ∧ c ≤ 57)

def isspaceChar (c : UInt8) : Bool := decide (c = 32 ∨ (9 ≤ c ∧ c ≤ 13))

/-- `strtol` in base ten, which stops at the ends of a `long`, converted to an `int`. -/
def atoi (s : List UInt8) : Int :=
  let s := s.dropWhile isspaceChar
  let (negative, rest) := match s with
    | 45 :: rest => (true, rest)
    | 43 :: rest => (false, rest)
    | _ => (false, s)
  let value : Nat := (rest.takeWhile isdigitChar).foldl (fun value c => value * 10 + (c.toNat - 48)) 0
  let long : Int := if negative then -(min value (2 ^ 63) : Nat) else (min value (2 ^ 63 - 1) : Nat)
  toSigned 32 (toUnsigned 32 long)

-- `src` is a string from where the copy starts; what it lacks of the `n` bytes is filled with NUL.
def strncpy (dst src : List UInt8) (n : Nat) : Exec Fault (List UInt8) := do
  Exec.check (n ≤ dst.length) .outOfBounds
  return src.take n ++ List.replicate (n - src.length) 0 ++ dst.drop n

def putByte (array : List UInt8) (i : Nat) (byte : UInt8) : Exec Fault (List UInt8) := do
  Exec.check (i < array.length) .outOfBounds
  return array.set i byte

def strdup (array : List UInt8) : Exec Fault (List UInt8) := do
  Exec.check (0 ∈ array) .outOfBounds
  return array.takeWhile (· ≠ 0)

/-! ## utils.c -/

def isDigit (buf : List UInt8) (n : Nat) : Bool :=
  if n = 0 then false else (buf.take n).all isdigitChar

def stringSplitMaxCount : Nat := 4096

/-- The arrays in the slots of `tmp` below `j`, each as long as it was allocated. -/
structure SplitState where
  tmp : List (List UInt8)
  k : Nat
deriving DecidableEq, Repr

-- The terminator of a piece is written at `i`, which counts from the start of the whole string.
def splitPass (buf : List UInt8) (delimit : UInt8) (s : SplitState) (here : UInt8 × Nat) :
    Exec Fault SplitState :=
  let (c, i) := here
  if c = delimit then do
    Exec.check (s.tmp.length < stringSplitMaxCount) .outOfBounds
    let piece ← strncpy (List.replicate (i - s.k + 1) 0) (buf.drop s.k) (i - s.k)
    let piece ← putByte piece i 0
    return { tmp := s.tmp ++ [piece], k := i + 1 }
  else return s

def splitLast (buf : List UInt8) (s : SplitState) : Exec Fault (List (List UInt8)) :=
  if 0 < s.tmp.length ∧ s.k < buf.length then do
    Exec.check (s.tmp.length < stringSplitMaxCount) .outOfBounds
    let piece ← strncpy (List.replicate (buf.length - s.k + 1) 0) (buf.drop s.k) (buf.length - s.k)
    return s.tmp ++ [piece]
  else return s.tmp

/-- What `*ptr` and `*count` hold. -/
structure SplitTarget where
  ptr : Option (List (List UInt8))
  count : Nat
deriving DecidableEq, Repr

def stringSplit (buf : Option CString) (delimit : UInt8) (target : Option SplitTarget) :
    Exec Fault (Int × Option SplitTarget) :=
  match buf, target with
  | some buf, some target => do
      let s ← buf.bytes.zipIdx.foldlM (splitPass buf.bytes delimit) { tmp := [], k := 0 }
      let tmp ← splitLast buf.bytes s
      if 0 < tmp.length then do
        let result ← tmp.mapM strdup
        return (0, some { ptr := some result, count := tmp.length })
      else return (0, some target)
  | _, target => return (-1, target)

end SampleFs.Base

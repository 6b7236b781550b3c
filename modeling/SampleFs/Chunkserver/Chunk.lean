import SampleFs.Lib.Exec
import SampleFs.Lib.CInt
import SampleFs.Lib.CString
import SampleFs.Lib.PosixFile

namespace SampleFs.Chunkserver
open Lib

def chunkOpLen : Nat := 65535

structure Chunk (φ : Type) where
  chunkId : Nat
  offset : Nat
  fd : φ
deriving DecidableEq, Repr

def digitByte (c : Char) : UInt8 := UInt8.ofNat c.toNat

def chunkName (id : Nat) : List UInt8 :=
  ((Nat.toDigits 10 id ++ ".chunk".toList).map digitByte).take 63

abbrev Directory := List UInt8 → Option (List UInt8)

-- `O_RDWR | O_CREAT | O_APPEND`: a file that is already there keeps its bytes.
def openChunk (dir : Directory) (name : List UInt8) : OpenFile :=
  { content := (dir name).getD [], offset := 0, append := true }

-- Whether `open` succeeds is up to the system, so it is a parameter.
def chunkInit (opens : List UInt8 → Bool) (dir : Directory) (id : Int) : Exec Fault (Option (Chunk OpenFile)) :=
  if 0 ≤ id then do
    Exec.check (opens (chunkName id.toNat)) .assertFailed
    return some { chunkId := id.toNat, offset := 0, fd := openChunk dir (chunkName id.toNat) }
  else return none

def minInt (a b : Int) : Int := if a < b then a else b

-- `min` takes and returns `int`, so both conversions are part of the batch size.
def batchSize (len total : Nat) : Nat :=
  toUnsigned 64 (minInt (toSigned 32 (toUnsigned 64 ((len : Int) - total))) chunkOpLen)

variable {φ : Type} (os : Syscalls φ)

structure WriteState (φ : Type) where
  total : Nat
  fd : φ

-- The test of the source is on `w_sz`, which is unsigned and stays 0: a negative result is added.
def writePass (buf : List UInt8) (len : Nat) (s : WriteState φ) :
    Exec Fault (Pass (WriteState φ) (Int × φ)) :=
  if s.total < len then do
    let batch := batchSize len s.total
    Exec.check (s.total + batch ≤ buf.length) .outOfBounds
    let (bytes, fd) := os.write s.fd ((buf.drop s.total).take batch)
    return .again { total := toUnsigned 64 (s.total + bytes), fd }
  else return .done (toSigned 64 s.total, s.fd)

def chunkWrite (blk : Chunk φ) (buf : List UInt8) (pos len : Nat) (fuel : Nat) :
    Exec Fault (Int × Chunk φ) := do
  let fd := os.lseek blk.fd (toSigned 64 pos)
  let (result, fd) ← Exec.loop (writePass os buf len) fuel { total := 0, fd }
  return (result, { blk with fd })

structure ReadState (φ : Type) where
  total : Nat
  buf : List UInt8
  fd : φ

def store (buf : List UInt8) (start : Nat) (bytes : List UInt8) : List UInt8 :=
  buf.take start ++ bytes ++ buf.drop (start + bytes.length)

def readPass (len : Nat) (s : ReadState φ) :
    Exec Fault (Pass (ReadState φ) ((Int × List UInt8) × φ)) :=
  if s.total < len then do
    let batch := batchSize len s.total
    Exec.check (s.total + batch ≤ s.buf.length) .outOfBounds
    let ((bytes, data), fd) := os.read s.fd batch
    return .again { total := toUnsigned 64 (s.total + bytes), buf := store s.buf s.total data, fd }
  else return .done ((toSigned 64 s.total, s.buf), s.fd)

def chunkRead (blk : Chunk φ) (buf : List UInt8) (pos len : Nat) (fuel : Nat) :
    Exec Fault ((Int × List UInt8) × Chunk φ) := do
  let fd := os.lseek blk.fd (toSigned 64 pos)
  let (result, fd) ← Exec.loop (readPass os len) fuel { total := 0, buf, fd }
  return (result, { blk with fd })

end SampleFs.Chunkserver

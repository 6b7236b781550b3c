import SampleFs.Lib.CInt
import SampleFs.Fuse.Super

/-!
# `pread_wrapper` on FreeBSD

A raw device reads whole aligned blocks only. The other branch of the wrapper is a plain `pread`; with
the limit that Linux sets on one call it is what `diskRead` models.
-/

namespace SampleFs.Fuse
open Lib

def preadBlockSize : Nat := 1024

structure RawDevice where
  disk : Disk
  whole : disk.size % preadBlockSize = 0

/-- What the kernel returns, an `ssize_t`, and the bytes it stores. -/
def pread (disk : Disk) (size start : Nat) : Int × List UInt8 :=
  let count := min size (disk.size - start)
  (count, disk.bytes start count)

def rawPread (device : RawDevice) (size start : Nat) : Int × List UInt8 :=
  if start % preadBlockSize = 0 ∧ size % preadBlockSize = 0 then pread device.disk size start
  else (-1, [])

-- An `ssize_t` kept in an `int`.
def toInt (value : Int) : Int := toSigned 32 (toUnsigned 32 value)

-- `ret += count`, where `ret` is an `int` and `count` a `size_t`
def addSize (ret : Int) (count : Nat) : Int := toSigned 32 (toUnsigned 64 ret + count)

/-- `p` is what has been stored so far, so the pointer stands behind it. -/
structure Reading where
  p : List UInt8
  size : Nat
  start : Nat
  ret : Int
deriving DecidableEq, Repr

def Reading.advance (s : Reading) (bytes : List UInt8) (count : Nat) : Reading where
  p := s.p ++ bytes
  size := s.size - count
  start := s.start + count
  ret := addSize s.ret count

def preadBlock (device : RawDevice) (start : Nat) : Exec Fault (List UInt8) := do
  let (preadRet, block) := rawPread device preadBlockSize start
  Exec.check (toInt preadRet = preadBlockSize) .assertFailed
  return block

def preadFirst (device : RawDevice) (s : Reading) : Exec Fault (Pass Reading (Int × List UInt8)) :=
  let firstOffset := s.start % preadBlockSize
  if firstOffset = 0 then return .again s
  else do
    let block ← preadBlock device (s.start - firstOffset)
    let firstSize := min s.size (preadBlockSize - firstOffset)
    let s := s.advance ((block.drop firstOffset).take firstSize) firstSize
    return if s.size = 0 then .done (s.ret, s.p) else .again s

def preadMid (device : RawDevice) (s : Reading) : Exec Fault (Pass Reading (Int × List UInt8)) := do
  Exec.check (s.start % preadBlockSize = 0) .assertFailed
  let midReadSize := s.size / preadBlockSize * preadBlockSize
  if midReadSize = 0 then return .again s
  else do
    let (preadRetMid, bytes) := rawPread device midReadSize s.start
    Exec.check (toUnsigned 64 (toInt preadRetMid) = midReadSize) .assertFailed
    let s := s.advance bytes midReadSize
    return if s.size = 0 then .done (s.ret, s.p) else .again s

def preadLast (device : RawDevice) (s : Reading) : Exec Fault (Int × List UInt8) := do
  Exec.check (s.size < preadBlockSize) .assertFailed
  let block ← preadBlock device s.start
  return (addSize s.ret s.size, s.p ++ block.take s.size)

/-- The return value with the bytes left in `p`. -/
def preadWrapper (device : RawDevice) (size start : Nat) : Exec Fault (Int × List UInt8) := do
  match ← preadFirst device { p := [], size, start, ret := 0 } with
  | .done result => return result
  | .again s =>
      match ← preadMid device s with
      | .done result => return result
      | .again s => preadLast device s

def rawDiskRead (device : RawDevice) (start size : Nat) : Exec Fault (List UInt8) := do
  let (preadRet, bytes) ← preadWrapper device size start
  Exec.check (toUnsigned 64 preadRet = size) .assertFailed
  return bytes

-- `__disk_read` over the other branch
def plainDiskRead (disk : Disk) (start size : Nat) : Exec Fault (List UInt8) := do
  let (preadRet, bytes) := pread disk size start
  Exec.check (toUnsigned 64 (toInt preadRet) = size) .assertFailed
  return bytes

end SampleFs.Fuse

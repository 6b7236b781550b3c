import SampleFs.Lib.Bytes

namespace SampleFs.Fuse
open Lib

/-! ## disk.c -/

structure Disk where
  size : Nat
  byte : Nat → UInt8
  fits : size < 2 ^ 63

def Disk.bytes (disk : Disk) (start size : Nat) : List UInt8 :=
  (List.range size).map fun i => disk.byte (start + i)

/-- The most bytes that one `pread` of Linux moves. -/
def preadMax : Nat := 0x7ffff000

-- A `pread` of more bytes comes back short, and the comparison with the size fails.
def diskRead (disk : Disk) (start size : Nat) : Exec Fault (List UInt8) := do
  Exec.check (size ≤ preadMax ∧ start < 2 ^ 63 ∧ (size = 0 ∨ start + size ≤ disk.size)) .assertFailed
  return disk.bytes start size

def diskReadU32 (disk : Disk) (start : Nat) : Exec Fault Nat := do
  let word ← diskRead disk start 4
  load word 0 4

structure DiskCtx where
  cur : Nat
  size : Nat
deriving DecidableEq, Repr

def diskCtxCreate (start size len : Nat) : Exec Fault DiskCtx := do
  Exec.check (size ≠ 0) .assertFailed
  return { cur := start, size := size * len }

def diskCtxRead (disk : Disk) (ctx : DiskCtx) (size : Nat) : Exec Fault (List UInt8 × DiskCtx) := do
  Exec.check (ctx.size ≠ 0) .assertFailed
  let size := if size > ctx.size then ctx.size else size
  let bytes ← diskRead disk ctx.cur size
  return (bytes, { cur := ctx.cur + size, size := ctx.size - size })

/-! ## super.c -/

def bootSectorSize : Nat := 0x400
def superBlockBytes : Nat := 1024
def groupDescMinSize : Nat := 0x20
def groupDescBytes : Nat := 64

structure Super where
  blocksCountLo : Nat
  logBlockSize : Nat
  blocksPerGroup : Nat
  inodesPerGroup : Nat
  inodeSize : Nat
  descSize : Nat
deriving DecidableEq, Repr

namespace Super

-- The sum has the 32 bits of the field.
def blockShift (super : Super) : Nat := (super.logBlockSize + 10) % 2 ^ 32

-- The shift is one of 64 bits, and the result is cut to 32.
def blockSize (super : Super) : Nat := 2 ^ super.blockShift % 2 ^ 32

def blocks2Bytes (super : Super) (blocks : Nat) : Nat := blocks * super.blockSize

def bytes2Blocks (super : Super) (bytes : Nat) : Nat :=
  bytes / super.blockSize + if bytes % super.blockSize ≠ 0 then 1 else 0

-- The mask `~(align - 1)` has the 32 bits of the block size, so it clears the upper half of `n`.
def alignToBlockSize (super : Super) (n : Nat) : Nat :=
  if n % super.blockSize ≠ 0 then
    n % 2 ^ 32 / super.blockSize * super.blockSize + super.blockSize
  else n

def nBlockGroups (super : Super) : Nat :=
  let n := (super.blocksCountLo + super.blocksPerGroup - 1) % 2 ^ 32 / super.blocksPerGroup
  if n ≠ 0 then n else 1

def groupDescSize (super : Super) : Nat :=
  if super.descSize = 0 then groupDescMinSize else groupDescBytes

end Super

structure Fs where
  disk : Disk
  super : Super
  gdescTable : List Nat

-- The block size and the group count are printed here, so their shift and division already happen.
def superFill (disk : Disk) : Exec Fault Super := do
  let raw ← diskRead disk bootSectorSize superBlockBytes
  let super := {
    blocksCountLo := ← load raw 4 4
    logBlockSize := ← load raw 24 4
    blocksPerGroup := ← load raw 32 4
    inodesPerGroup := ← load raw 40 4
    inodeSize := ← load raw 88 2
    descSize := ← load raw 254 2 : Super }
  Exec.check (super.blockShift < 64) .shiftOverflow
  Exec.check (super.blocksPerGroup ≠ 0) .divisionByZero
  return super

def groupDesc (disk : Disk) (super : Super) (i : Nat) : Exec Fault Nat := do
  let start := super.alignToBlockSize (bootSectorSize + superBlockBytes)
  let raw ← diskRead disk (start + i * super.groupDescSize % 2 ^ 32) super.groupDescSize
  load raw 8 4

def superGroupFill (disk : Disk) (super : Super) : Exec Fault (List Nat) := do
  Exec.check (super.blockSize ≠ 0) .divisionByZero
  (List.range super.nBlockGroups).mapM (groupDesc disk super)

def superGroupInodeTableOffset (fs : Fs) (inodeNum : Nat) : Exec Fault Nat := do
  Exec.check (fs.super.inodesPerGroup ≠ 0) .divisionByZero
  let nGroup := inodeNum / fs.super.inodesPerGroup
  Exec.check (nGroup < fs.super.nBlockGroups) .assertFailed
  match fs.gdescTable[nGroup]? with
  | some table => return fs.super.blocks2Bytes table
  | none => .fail .outOfBounds

def opInit (disk : Disk) : Exec Fault Fs := do
  let super ← superFill disk
  let gdescTable ← superGroupFill disk super
  return { disk, super, gdescTable }

end SampleFs.Fuse

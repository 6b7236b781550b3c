import SampleFs.Fuse.Extents

namespace SampleFs.Fuse
open Lib

def ext4NdirBlocks : Nat := 12
def ext4IndBlock : Nat := 12
def ext4DindBlock : Nat := 13
def ext4TindBlock : Nat := 14
def ext4ExtentsFlBit : Nat := 19
def inodeBytes : Nat := 156
def enoent : Int := 2

structure Inode where
  mode : Nat
  size : Nat
  flags : Nat
  block : List UInt8
deriving DecidableEq, Repr

-- A field past the bytes read from the disk is never set.
def decodeInode (raw : List UInt8) : Exec Fault Inode := do
  let mode ← load raw 0 2
  let sizeLo ← load raw 4 4
  let flags ← load raw 32 4
  let sizeHigh ← load raw 108 4
  return { mode, size := sizeHigh * 2 ^ 32 + sizeLo, flags, block := (raw.drop 40).take 60 }

/-- `none` is the `-ENOENT` of inode 0. -/
def inodeGetByNumber (fs : Fs) (n : Nat) : Exec Fault (Option Inode) :=
  if n % 2 ^ 32 = 0 then return none
  else do
    let n := n % 2 ^ 32 - 1
    let table ← superGroupInodeTableOffset fs n
    let off := table + n % fs.super.inodesPerGroup * fs.super.inodeSize % 2 ^ 32
    let raw ← diskRead fs.disk off (min fs.super.inodeSize inodeBytes)
    return some (← decodeInode raw)

/-! ## Block maps of ext2 and ext3 -/

namespace Super

def addressesInIndBlock (super : Super) : Nat := super.blockSize / 4

def addressesInDindBlock (super : Super) : Nat :=
  super.addressesInIndBlock * super.addressesInIndBlock

-- a `size_t`, which wraps from blocks of 2^24 bytes on
def addressesInTindBlock (super : Super) : Nat :=
  super.addressesInDindBlock * super.addressesInIndBlock % 2 ^ 64

def maxIndBlock (super : Super) : Nat := ext4NdirBlocks + super.addressesInIndBlock
def maxDindBlock (super : Super) : Nat := super.maxIndBlock + super.addressesInDindBlock
def maxTindBlock (super : Super) : Nat := super.maxDindBlock + super.addressesInTindBlock

end Super

def inodeGetDataPblockInd (fs : Fs) (lblock indexBlock : Nat) : Exec Fault Nat := do
  Exec.check (lblock < fs.super.addressesInIndBlock) .assertFailed
  diskReadU32 fs.disk (fs.super.blocks2Bytes indexBlock + lblock * 4)

def inodeGetDataPblockDind (fs : Fs) (lblock dindexBlock : Nat) : Exec Fault Nat := do
  Exec.check (lblock < fs.super.addressesInDindBlock) .assertFailed
  let offset := lblock / fs.super.addressesInIndBlock * 4
  let indexBlock ← diskReadU32 fs.disk (fs.super.blocks2Bytes dindexBlock + offset)
  inodeGetDataPblockInd fs (lblock % fs.super.addressesInIndBlock) indexBlock

def inodeGetDataPblockTind (fs : Fs) (lblock tindexBlock : Nat) : Exec Fault Nat := do
  Exec.check (lblock < fs.super.addressesInTindBlock) .assertFailed
  let offset := lblock / fs.super.addressesInDindBlock * 4
  let dindexBlock ← diskReadU32 fs.disk (fs.super.blocks2Bytes tindexBlock + offset)
  inodeGetDataPblockDind fs (lblock % fs.super.addressesInDindBlock) dindexBlock

def iBlock (inode : Inode) (i : Nat) : Exec Fault Nat := load inode.block (4 * i) 4

def blockMapPblock (fs : Fs) (inode : Inode) (lblock : Nat) : Exec Fault Nat := do
  Exec.check (lblock ≤ fs.super.bytes2Blocks inode.size) .assertFailed
  if lblock < ext4NdirBlocks then iBlock inode lblock
  else if lblock < fs.super.maxIndBlock then do
    let indexBlock ← iBlock inode ext4IndBlock
    inodeGetDataPblockInd fs (lblock - ext4NdirBlocks) indexBlock
  else if lblock < fs.super.maxDindBlock then do
    let dindexBlock ← iBlock inode ext4DindBlock
    inodeGetDataPblockDind fs (lblock - fs.super.maxIndBlock) dindexBlock
  else if lblock < fs.super.maxTindBlock then do
    let tindexBlock ← iBlock inode ext4TindBlock
    inodeGetDataPblockTind fs (lblock - fs.super.maxDindBlock) tindexBlock
  else .fail .assertFailed

def inodeGetDataPblock (fs : Fs) (inode : Inode) (lblock fuel : Nat) : Exec Fault (Nat × Nat) :=
  if inode.flags.testBit ext4ExtentsFlBit then extentGetPblock fs lblock 1 fuel inode.block
  else do
    let pblock ← blockMapPblock fs inode lblock
    return (pblock, 1)

end SampleFs.Fuse

import SampleFs.Fuse.Inode

namespace SampleFs.Fuse
open Lib

def truncateSize (inode : Inode) (size offset : Nat) : Nat :=
  if offset ≥ inode.size then 0
  else if (offset + size) % 2 ^ 64 ≥ inode.size then inode.size - offset
  else size

-- `size - 1` is a `size_t`: for an empty read it wraps, but is not used.
def firstRead (fs : Fs) (inode : Inode) (size offset fuel : Nat) : Exec Fault (List UInt8) :=
  let endLblock := (offset + (size + (2 ^ 64 - 1))) % 2 ^ 64 / fs.super.blockSize % 2 ^ 32
  let startLblock := offset / fs.super.blockSize % 2 ^ 32
  let startBlockOff := offset % fs.super.blockSize
  if size = 0 then return []
  else if startBlockOff = 0 then return []
  else do
    let (startPblock, _) ← inodeGetDataPblock fs inode startLblock fuel
    if startLblock = endLblock then
      diskRead fs.disk (fs.super.blocks2Bytes startPblock + startBlockOff) size
    else do
      let aligned := fs.super.alignToBlockSize offset
      let sizeToBlockEnd := (aligned + (2 ^ 64 - offset)) % 2 ^ 64
      Exec.check ((offset + sizeToBlockEnd) % 2 ^ 64 % fs.super.blockSize = 0) .assertFailed
      diskRead fs.disk (fs.super.blocks2Bytes startPblock + startBlockOff) sizeToBlockEnd

def readRun (fs : Fs) (pblock extentLen want : Nat) : Exec Fault (List UInt8) :=
  if pblock ≠ 0 then do
    let ctx ← diskCtxCreate (fs.super.blocks2Bytes pblock) fs.super.blockSize extentLen
    let (bytes, _) ← diskCtxRead fs.disk ctx want
    return bytes
  else return List.replicate (min want fs.super.blockSize) 0

structure ReadLoop where
  lblock : Nat
  buf : List UInt8
deriving DecidableEq, Repr

-- `ret` is the length of what has been stored in the caller's buffer so far.
def readPass (fs : Fs) (inode : Inode) (size fuel : Nat) (s : ReadLoop) :
    Exec Fault (Pass ReadLoop (List UInt8)) :=
  if size > s.buf.length then do
    let (pblock, extentLen) ← inodeGetDataPblock fs inode s.lblock fuel
    let bytes ← readRun fs pblock extentLen (size - s.buf.length)
    return .again { lblock := (s.lblock + extentLen) % 2 ^ 32, buf := s.buf ++ bytes }
  else return .done s.buf

/-- The result with the bytes stored in `buf`. -/
def opRead (fs : Fs) (fh size : Nat) (offset : Int) (fuel : Nat) : Exec Fault (Int × List UInt8) := do
  Exec.check (0 ≤ offset) .assertFailed
  match ← inodeGetByNumber fs fh with
  | none => return (-enoent, [])
  | some inode =>
      let size := truncateSize inode size offset.toNat
      let head ← firstRead fs inode size offset.toNat fuel
      let lblock := (offset.toNat + head.length) % 2 ^ 64 / fs.super.blockSize % 2 ^ 32
      let buf ← Exec.loop (readPass fs inode size fuel) fuel { lblock, buf := head }
      Exec.check (size = buf.length) .assertFailed
      return (buf.length, buf)

end SampleFs.Fuse

import SampleFs.Fuse.OpReadlink

/-!
# Writes into the output buffers

The ranges that `op_readdir` writes of its `name_buf` and `op_readlink` of the caller's `buf`. What is
copied does not decide how much of it: `memcpy` and `strncpy` fill the range they are given.
-/

namespace SampleFs.Fuse
open Lib

structure BufWrite where
  pos : Nat
  width : Nat
deriving DecidableEq, Repr

def BufWrite.Fits (size : Nat) (write : BufWrite) : Prop := write.pos + write.width ≤ size

def printableNameWrites (buf : List UInt8) (pos : Nat) : Exec Fault (List BufWrite) := do
  let nameLen ← load buf (pos + 6) 1
  return [⟨0, nameLen⟩, ⟨nameLen, 1⟩]

def readdirPassWrites (fs : Fs) (inode : Inode) (fuel : Nat) (s : ReaddirLoop) : Exec Fault (List BufWrite) := do
  let (dentry, ctx) ← inodeDentryGet fs inode s.offset s.ctx fuel
  match dentry with
  | none => return []
  | some pos =>
      let ino ← load ctx.buf pos 4
      if ino = 0 then return [] else printableNameWrites ctx.buf pos

def linkDestWrites (fs : Fs) (inode : Inode) (bufsize fuel : Nat) : Exec Fault (List BufWrite) :=
  if inode.size ≤ 60 then return [⟨0, inode.size⟩, ⟨inode.size, 1⟩]
  else do
    let (pblock, _) ← inodeGetDataPblock fs inode 0 fuel
    let _ ← diskRead fs.disk (fs.super.blocks2Bytes pblock) fs.super.blockSize
    return [⟨0, bufsize - 1⟩, ⟨inode.size, 1⟩]

/-- `none` where the inode on the stack was never filled: what it then writes can be anywhere. -/
def opReadlinkWrites (fs : Fs) (d : Dcache) (path : List UInt8) (bufsize fuel : Nat) :
    Exec Fault (Option (List BufWrite)) := do
  match ← inodeGetByPath fs d path fuel with
  | (none, _) => return none
  | (some inode, _) =>
      if inode.isLnk then return some (← linkDestWrites fs inode bufsize fuel) else return some []

end SampleFs.Fuse

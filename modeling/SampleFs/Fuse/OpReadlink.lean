import SampleFs.Fuse.OpReaddir

namespace SampleFs.Fuse
open Lib

def einval : Int := 22

-- `S_ISLNK`
def Inode.isLnk (inode : Inode) : Bool := inode.mode / 0o10000 % 16 == 0o12

/-- The bytes that `get_link_dest` copies to the start of `buf`, which has at least one byte. -/
def linkText (fs : Fs) (inode : Inode) (bufsize fuel : Nat) : Exec Fault (List UInt8) :=
  if inode.size ≤ 60 then do
    Exec.check (inode.size ≤ inode.block.length) .outOfBounds
    return inode.block.take inode.size
  else do
    let (pblock, _) ← inodeGetDataPblock fs inode 0 fuel
    let blockData ← diskRead fs.disk (fs.super.blocks2Bytes pblock) fs.super.blockSize
    strncpyBytes blockData (bufsize - 1)

/-- What is left in `buf`. The return value has no user. -/
def getLinkDest (fs : Fs) (inode : Inode) (buf : List UInt8) (fuel : Nat) : Exec Fault (List UInt8) := do
  let text ← linkText fs inode buf.length fuel
  let buf ← storeBytes buf 0 text
  storeBytes buf inode.size [0]

/-- The return value, what is left in `buf`, and the directory cache. -/
def opReadlink (fs : Fs) (d : Dcache) (path buf : List UInt8) (fuel : Nat) :
    Exec Fault (Int × List UInt8 × Dcache) := do
  match ← inodeGetByPath fs d path fuel with
  -- The result of the lookup is dropped, and the inode on the stack was never filled.
  | (none, _) => .fail .uninitialised
  | (some inode, d) =>
      if inode.isLnk then do
        let buf ← getLinkDest fs inode buf fuel
        return (0, buf, d)
      else return (-einval, buf, d)

end SampleFs.Fuse

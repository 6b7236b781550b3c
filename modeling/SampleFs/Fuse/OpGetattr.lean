import SampleFs.Fuse.Lookup
import SampleFs.Lib.CInt

namespace SampleFs.Fuse
open Lib

structure Stat where
  mode : Nat
  nlink : Nat
  size : Int
  blocks : Nat
  uid : Nat
  gid : Nat
  atime : Nat
  mtime : Nat
  ctime : Nat
deriving DecidableEq, Repr

def Stat.zero : Stat := ⟨0, 0, 0, 0, 0, 0, 0, 0, 0⟩

/-- The bytes that `inode_get_by_number` leaves in its `struct ext4_inode`. -/
def inodeRecordOf (fs : Fs) (n : Nat) : Exec Fault (Option (List UInt8)) :=
  if n % 2 ^ 32 = 0 then return none
  else do
    let n := n % 2 ^ 32 - 1
    let table ← superGroupInodeTableOffset fs n
    let off := table + n % fs.super.inodesPerGroup * fs.super.inodeSize % 2 ^ 32
    let raw ← diskRead fs.disk off (min fs.super.inodeSize inodeBytes)
    return some raw

-- `& ~0222` on a mode of 16 bits
def readOnlyMode (mode : Nat) : Nat := mode &&& 0o177555

def fillStat (raw : List UInt8) : Exec Fault Stat := do
  let inode ← decodeInode raw
  return {
    mode := readOnlyMode inode.mode
    nlink := ← load raw 26 2
    size := toSigned 64 inode.size
    blocks := ← load raw 28 4
    uid := ← load raw 2 2
    gid := ← load raw 24 2
    atime := ← load raw 8 4
    mtime := ← load raw 16 4
    ctime := ← load raw 12 4 }

/-- The return value, what is left in `stbuf`, and the directory cache. -/
def opGetattr (fs : Fs) (d : Dcache) (path : List UInt8) (fuel : Nat) : Exec Fault (Int × Stat × Dcache) := do
  let (n, d) ← inodeGetIdxByPath fs d path fuel
  match ← inodeRecordOf fs n with
  | none => return (-enoent, .zero, d)
  | some raw =>
      let stat ← fillStat raw
      return (0, stat, d)

end SampleFs.Fuse

import SampleFs.Fuse.Inode
import SampleFs.Fuse.Dcache

namespace SampleFs.Fuse
open Lib

def rootInodeN : Nat := 2
def slash : UInt8 := 0x2f

-- `S_ISDIR`
def Inode.isDir (inode : Inode) : Bool := inode.mode / 0o10000 % 16 == 0o4

structure DirCtx where
  lblock : Nat
  buf : List UInt8
deriving DecidableEq, Repr

def dirCtxUpdate (fs : Fs) (inode : Inode) (lblock fuel : Nat) : Exec Fault DirCtx := do
  let (dirPblock, _) ← inodeGetDataPblock fs inode lblock fuel
  let buf ← diskRead fs.disk (fs.super.blocks2Bytes dirPblock) fs.super.blockSize
  return { lblock, buf }

/-- `none` at the end of the directory, otherwise the position of the entry in the buffered block. -/
def inodeDentryGet (fs : Fs) (inode : Inode) (offset : Nat) (ctx : DirCtx) (fuel : Nat) :
    Exec Fault (Option Nat × DirCtx) := do
  let lblock := offset / fs.super.blockSize % 2 ^ 32
  let blkOffset := offset % fs.super.blockSize
  Exec.check (inode.size ≥ offset) .assertFailed
  if inode.size = offset then return (none, ctx)
  else if lblock = ctx.lblock then return (some blkOffset, ctx)
  else do
    let ctx ← dirCtxUpdate fs inode lblock fuel
    return (some blkOffset, ctx)

structure DirScan where
  offset : Nat
  ctx : DirCtx
deriving DecidableEq, Repr

def dentryPass (fs : Fs) (inode : Inode) (path : List UInt8) (pathLen fuel : Nat) (s : DirScan) :
    Exec Fault (Pass DirScan (Option Nat)) := do
  let (dentry, ctx) ← inodeDentryGet fs inode s.offset s.ctx fuel
  match dentry with
  | none => return .done none
  | some pos =>
      let ino ← load ctx.buf pos 4
      let recLen ← load ctx.buf (pos + 4) 2
      let next : DirScan := { offset := (s.offset + recLen) % 2 ^ 32, ctx }
      if ino = 0 then return .again next
      else do
        let nameLen ← load ctx.buf (pos + 6) 1
        if pathLen ≠ nameLen then return .again next
        else do
          Exec.check (pos + 8 + nameLen ≤ ctx.buf.length) .outOfBounds
          if (ctx.buf.drop (pos + 8)).take nameLen ≠ path.take nameLen then return .again next
          else return .done (some ino)

/-- One round of the component loop up to the test of `dentry`: whether the searched inode is a
directory, and the inode number found. -/
def searchDir (fs : Fs) (inodeIdx : Nat) (path : List UInt8) (pathLen fuel : Nat) :
    Exec Fault (Bool × Option Nat) := do
  match ← inodeGetByNumber fs inodeIdx with
  | none => .fail .uninitialised
  | some inode =>
      let ctx ← dirCtxUpdate fs inode 0 fuel
      let dentry ← Exec.loop (dentryPass fs inode path pathLen fuel) fuel { offset := 0, ctx }
      return (inode.isDir, dentry)

/-! ## Paths -/

-- `len` is a `uint8_t`, and the string ends with a NUL.
def tokenPass (path : List UInt8) (len : Nat) : Exec Fault (Pass Nat Nat) :=
  if path.getD len 0 ≠ slash ∧ path.getD len 0 ≠ 0 then return .again ((len + 1) % 256)
  else return .done len

def getPathTokenLen (path : List UInt8) (fuel : Nat) : Exec Fault Nat :=
  Exec.loop (tokenPass path) fuel 0

structure CachedWalk where
  path : List UInt8
  next : Option Nat
  d : Dcache
deriving DecidableEq, Repr

def cachedPass (fuel : Nat) (s : CachedWalk) : Exec Fault (Pass CachedWalk CachedWalk) := do
  let path := if s.path.getD 0 0 = slash then s.path.drop 1 else s.path
  let pathLen ← getPathTokenLen path fuel
  if pathLen = 0 then return .done { s with path }
  else do
    match ← dcacheLookup s.d s.next path pathLen fuel with
    | (none, d) => return .done { path, next := s.next, d }
    | (some next, d) => return .again { path := path.drop pathLen, next := some next, d }

def getCachedInodeNum (d : Dcache) (path : List UInt8) (fuel : Nat) : Exec Fault CachedWalk :=
  Exec.loop (cachedPass fuel) fuel { path, next := none, d }

def skipTrailingBackslash (path : List UInt8) : List UInt8 := path.dropWhile (· = slash)

def strchr (path : List UInt8) (c : UInt8) : Option (List UInt8) :=
  if c ∈ path then some (path.dropWhile (· ≠ c)) else none

structure PathWalk where
  path : List UInt8
  inodeIdx : Nat
  dcEntry : Option Nat
  d : Dcache
deriving DecidableEq, Repr

-- The test is on the inode that was searched, not on the one that was found.
def rememberDentry (s : PathWalk) (path : List UInt8) (pathLen : Nat) (isDir : Bool) (inodeIdx : Nat) :
    Exec Fault (Option Nat × Dcache) :=
  if isDir then dcacheInsert s.d s.dcEntry path pathLen inodeIdx
  else return (s.dcEntry, s.d)

def followDentry (s : PathWalk) (path : List UInt8) (pathLen : Nat) :
    Bool × Option Nat → Exec Fault (Pass PathWalk (Nat × Dcache))
  | (_, none) => return .done (0, s.d)
  | (isDir, some inodeIdx) => do
      let (dcEntry, d) ← rememberDentry s path pathLen isDir inodeIdx
      match strchr path slash with
      | none => return .done (inodeIdx, d)
      | some path => return .again { path, inodeIdx, dcEntry, d }

def componentPass (fs : Fs) (fuel : Nat) (s : PathWalk) :
    Exec Fault (Pass PathWalk (Nat × Dcache)) := do
  let path := skipTrailingBackslash s.path
  let pathLen ← getPathTokenLen path fuel
  if pathLen = 0 then return .done (s.inodeIdx, s.d)
  else do
    let found ← searchDir fs s.inodeIdx path pathLen fuel
    followDentry s path pathLen found

def inodeGetIdxByPath (fs : Fs) (d : Dcache) (path : List UInt8) (fuel : Nat) :
    Exec Fault (Nat × Dcache) := do
  Exec.check (path.getD 0 0 = slash) .assertFailed
  let cached ← getCachedInodeNum d path fuel
  let inodeIdx ← dcacheGetInode cached.d cached.next
  Exec.loop (componentPass fs fuel) fuel
    { path := cached.path, inodeIdx, dcEntry := cached.next, d := cached.d }

def inodeInit : Dcache := dcacheInitRoot rootInodeN

end SampleFs.Fuse

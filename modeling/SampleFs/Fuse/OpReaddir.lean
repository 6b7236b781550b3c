import SampleFs.Fuse.Lookup

namespace SampleFs.Fuse
open Lib

def ext4NameLen : Nat := 255

/-- The bytes put in `name_buf`; the terminator goes to the index behind them. -/
def getPrintableName (buf : List UInt8) (pos : Nat) : Exec Fault (List UInt8) := do
  let nameLen ← load buf (pos + 6) 1
  Exec.check (pos + 8 + nameLen ≤ buf.length) .outOfBounds
  Exec.check (nameLen < ext4NameLen) .outOfBounds
  return (buf.drop (pos + 8)).take nameLen

/-- What the filler took: the string up to its NUL, and the offset passed with it. -/
structure Filled where
  name : List UInt8
  offset : Nat
deriving DecidableEq, Repr

structure ReaddirLoop where
  offset : Nat
  ctx : DirCtx
  filled : List Filled
deriving DecidableEq, Repr

-- A filler with room for `n` names returns non-zero from the next one on; `none` is one that never does.
def filler (room : Option Nat) (filled : List Filled) (name : List UInt8) (offset : Nat) : Option (List Filled) :=
  if room = some filled.length then none
  else some (filled ++ [⟨name.takeWhile (· ≠ 0), offset⟩])

def readdirPass (fs : Fs) (inode : Inode) (room : Option Nat) (fuel : Nat) (s : ReaddirLoop) :
    Exec Fault (Pass ReaddirLoop (List Filled)) := do
  let (dentry, ctx) ← inodeDentryGet fs inode s.offset s.ctx fuel
  match dentry with
  | none => return .done s.filled
  | some pos =>
      let ino ← load ctx.buf pos 4
      let recLen ← load ctx.buf (pos + 4) 2
      let offset := s.offset + recLen
      if ino = 0 then return .again { s with offset, ctx }
      else do
        let nameBuf ← getPrintableName ctx.buf pos
        if nameBuf.headD 0 = 0 then return .again { s with offset, ctx }
        else
          match filler room s.filled nameBuf offset with
          | none => return .done s.filled
          | some filled => return .again { offset, ctx, filled }

def inodeGetByPath (fs : Fs) (d : Dcache) (path : List UInt8) (fuel : Nat) :
    Exec Fault (Option Inode × Dcache) := do
  let (n, d) ← inodeGetIdxByPath fs d path fuel
  return (← inodeGetByNumber fs n, d)

/-- The part of `op_readdir` behind the lookup of the path. -/
def readdirFrom (fs : Fs) (inode : Inode) (offset : Nat) (room : Option Nat) (fuel : Nat) :
    Exec Fault (List Filled) := do
  let ctx ← dirCtxUpdate fs inode 0 fuel
  Exec.loop (readdirPass fs inode room fuel) fuel { offset, ctx, filled := [] }

/-- The return value, what the filler took, and the directory cache left behind. -/
def opReaddir (fs : Fs) (d : Dcache) (path : List UInt8) (offset : Nat) (room : Option Nat) (fuel : Nat) :
    Exec Fault (Int × List Filled × Dcache) := do
  match ← inodeGetByPath fs d path fuel with
  | (none, d) => return (-enoent, [], d)
  | (some inode, d) =>
      let filled ← readdirFrom fs inode offset room fuel
      return (0, filled, d)

end SampleFs.Fuse

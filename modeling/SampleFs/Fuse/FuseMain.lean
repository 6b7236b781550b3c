import SampleFs.Lib.Simulation
import SampleFs.Fuse.OpGetattr
import SampleFs.Fuse.OpRead
import SampleFs.Fuse.OpReadlink

namespace SampleFs.Fuse
open Lib

def eacces : Int := 13
def ext4Magic : Nat := 0xEF53

/-- The return value, what is stored in `fi->fh`, and the directory cache. -/
def opOpen (fs : Fs) (d : Dcache) (path : List UInt8) (flags fuel : Nat) :
    Exec Fault (Int × Option Nat × Dcache) :=
  if flags % 4 ≠ 0 then return (-eacces, none, d)
  else do
    let (fh, d) ← inodeGetIdxByPath fs d path fuel
    return (0, some fh, d)

/-! ## The operations behind one mount -/

inductive Request where
  | getattr (path : List UInt8)
  | readdir (path : List UInt8) (offset : Nat) (room : Option Nat)
  | open (path : List UInt8) (flags : Nat)
  | read (file size : Nat) (offset : Int)
  | readlink (path buf : List UInt8)
deriving DecidableEq, Repr

inductive Reply where
  | stat (ret : Int) (stbuf : Stat)
  | names (ret : Int) (filled : List Filled)
  | opened (ret : Int)
  | data (ret : Int) (bytes : List UInt8)
  | target (ret : Int) (text : List UInt8)
deriving DecidableEq, Repr

-- The `fh` of an open file is kept outside the program, and comes back with every read of it.
structure Session where
  dcache : Dcache
  files : List Nat
deriving DecidableEq, Repr

-- The text that `op_readlink` leaves is only looked at when it returns 0.
def e4fOps (fs : Fs) : Server Fault Session Request Reply
  | s, .getattr path, fuel => do
      let (ret, stbuf, dcache) ← opGetattr fs s.dcache path fuel
      return (.stat ret stbuf, { s with dcache })
  | s, .readdir path offset room, fuel => do
      let (ret, filled, dcache) ← opReaddir fs s.dcache path offset room fuel
      return (.names ret filled, { s with dcache })
  | s, .open path flags, fuel => do
      let (ret, fh, dcache) ← opOpen fs s.dcache path flags fuel
      return (.opened ret, { dcache, files := s.files ++ fh.toList })
  | s, .read file size offset, fuel =>
      match s.files[file]? with
      | none => .fail .outOfBounds
      | some fh => do
          let (ret, bytes) ← opRead fs fh size offset fuel
          return (.data ret bytes, s)
  | s, .readlink path buf, fuel => do
      let (ret, buf, dcache) ← opReadlink fs s.dcache path buf fuel
      return (.target ret (if ret = 0 then buf.takeWhile (· ≠ 0) else []), { s with dcache })

/-- `main` from the opened disk on, with the `op_init` that `fuse_main` calls first. `none` is a
partition without the magic number. -/
def fuseMain (disk : Disk) : Exec Fault (Option (Fs × Session)) := do
  let diskMagic ← diskRead disk (bootSectorSize + 56) 2
  if littleEndian diskMagic ≠ ext4Magic then return none
  else do
    let fs ← opInit disk
    return some (fs, ⟨inodeInit, []⟩)

end SampleFs.Fuse

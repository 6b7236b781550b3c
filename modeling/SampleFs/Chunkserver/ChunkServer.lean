import Mathlib.Logic.Function.Basic
import SampleFs.Chunkserver.Chunk
import SampleFs.Lib.Simulation

/-!
# `chunkserver/chunk_server.c`

The server has one open chunk for each number below the configured count. The files are in the
directory the process runs in, and stay there when it ends; a descriptor is a name and an offset.
-/

namespace SampleFs.Chunkserver
open Lib

/-- The directory, as seen by the calls on one descriptor. -/
structure DirFile where
  dir : Directory
  name : List UInt8
  offset : Nat

namespace DirFile

def file (f : DirFile) : OpenFile := { content := (f.dir f.name).getD [], offset := f.offset, append := true }

def put (f : DirFile) (file : OpenFile) : DirFile :=
  { f with dir := Function.update f.dir f.name (some file.content), offset := file.offset }

def syscalls : Syscalls DirFile where
  lseek f delta := { f with offset := (f.file.lseekCur delta).offset }
  write f data := ((f.file.write data).1, f.put (f.file.write data).2)
  read f size := ((f.file.read size).1, { f with offset := (f.file.read size).2.offset })

end DirFile

structure Descriptor where
  name : List UInt8
  offset : Nat
deriving DecidableEq, Repr

/-- A chunk that `chunk_init` has refused is left as `calloc` made it. -/
structure ChunkServer where
  dir : Directory
  chunks : List (Option (Chunk Descriptor))

namespace ChunkServer

-- `O_CREAT`
def create (dir : Directory) (name : List UInt8) : Directory :=
  match dir name with
  | some _ => dir
  | none => Function.update dir name (some [])

section
-- Whether `open` succeeds depends on what is there and on what is open, so it is a parameter.
variable (opens : ChunkServer → List UInt8 → Bool)

def chunkInit (s : ChunkServer) (id : Int) : Exec Fault ChunkServer :=
  if 0 ≤ id then do
    Exec.check (opens s (chunkName id.toNat)) .assertFailed
    return { dir := create s.dir (chunkName id.toNat)
             chunks := s.chunks ++ [some { chunkId := id.toNat, offset := 0, fd := ⟨chunkName id.toNat, 0⟩ }] }
  else return { s with chunks := s.chunks ++ [none] }

-- The index is a `size_t` and the identifier an `int`.
def chunkServerAlloc (dir : Directory) (chunkCount : Nat) : Exec Fault ChunkServer :=
  (List.range chunkCount).foldlM (fun s i => s.chunkInit opens (toSigned 32 i)) ⟨dir, []⟩

end

def onChunk {α : Type} (s : ChunkServer) (i : Nat) (call : Chunk DirFile → Exec Fault (α × Chunk DirFile)) :
    Exec Fault (α × ChunkServer) :=
  match s.chunks[i]? with
  | none => .fail .outOfBounds
  | some none => .fail .uninitialised
  | some (some blk) => do
      let (result, blk) ← call { blk with fd := ⟨s.dir, blk.fd.name, blk.fd.offset⟩ }
      return (result, ⟨blk.fd.dir, s.chunks.set i (some { blk with fd := ⟨blk.fd.name, blk.fd.offset⟩ })⟩)

end ChunkServer

inductive StoreRequest where
  | write (i pos : Nat) (data : List UInt8)
  | read (i pos : Nat) (buf : List UInt8)
  | restart
deriving DecidableEq, Repr

inductive StoreReply where
  | written (result : Int)
  | filled (result : Int) (buf : List UInt8)
  | restarted
deriving DecidableEq, Repr

open ChunkServer in
def serveChunks (opens : ChunkServer → List UInt8 → Bool) : Server Fault ChunkServer StoreRequest StoreReply :=
  fun s request fuel =>
  match request with
  | .write i pos data => do
      let (result, s) ← s.onChunk i fun blk => chunkWrite DirFile.syscalls blk data pos data.length fuel
      return (.written result, s)
  | .read i pos buf => do
      let ((result, filled), s) ← s.onChunk i fun blk => chunkRead DirFile.syscalls blk buf pos buf.length fuel
      return (.filled result filled, s)
  -- the process ends and another one starts in the same directory
  | .restart => do
      let s ← chunkServerAlloc opens s.dir s.chunks.length
      return (.restarted, s)

end SampleFs.Chunkserver

import SampleFs.Lib.Interleaving
import SampleFs.Fuse.Lookup

/-!
# The directory cache between threads

`dcache.c` takes no locks. Here its two operations are cut at every access to a pointer that other
threads may write, and `inode_get_idx_by_path` is run by several threads over one cache.
-/

namespace SampleFs.Fuse
open Lib

inductive LookupPoint where
  | test
  | first
  | compare (iter : Option Nat)
  | found (iter : Option Nat)
  | next (iter : Option Nat)
  | until (iter : Option Nat)
deriving DecidableEq, Repr

def dcacheLookupStep (parent : Nat) (name : List UInt8) (namelen : Nat) (d : Dcache) :
    LookupPoint → Exec Fault (Dcache × Pass LookupPoint (Option Nat))
  | .test => do
      let above ← d.load parent
      return (d, if above.childs = none then .done none else .again .first)
  | .first => do
      let above ← d.load parent
      return (d, .again (.compare above.childs))
  | .compare iter => do
      let entry ← d.load iter
      return (d, .again (if nameMatches entry name namelen then .found iter else .next iter))
  | .found iter => do
      let above ← d.load parent
      return (d.store parent { above with childs := iter }, .done iter)
  | .next iter => do
      let entry ← d.load iter
      return (d, .again (.until entry.siblings))
  | .until iter => do
      let above ← d.load parent
      return (d, if iter ≠ above.childs then .again (.compare iter) else .done none)

inductive InsertPoint where
  | test
  | alone
  | head
  | tail (first : Option Nat)
  | link (siblings : Option Nat)
  | again
  | hook (first : Option Nat)
  | publish
deriving DecidableEq, Repr

-- `parent->childs` is loaded three times where there are children, and again by every other thread.
def dcacheInsertStep (parent fresh : Nat) (d : Dcache) : InsertPoint → Exec Fault (Dcache × Pass InsertPoint Unit)
  | .test => do
      let above ← d.load parent
      return (d, .again (if above.childs = none then .alone else .head))
  | .alone => do
      let entry ← d.load fresh
      return (d.store fresh { entry with siblings := some fresh }, .again .publish)
  | .head => do
      let above ← d.load parent
      return (d, .again (.tail above.childs))
  | .tail first => do
      let entry ← d.load first
      return (d, .again (.link entry.siblings))
  | .link siblings => do
      let entry ← d.load fresh
      return (d.store fresh { entry with siblings }, .again .again)
  | .again => do
      let above ← d.load parent
      return (d, .again (.hook above.childs))
  | .hook first => do
      let entry ← d.load first
      return (d.store (first.getD 0) { entry with siblings := some fresh }, .again .publish)
  | .publish => do
      let above ← d.load parent
      return (d.store parent { above with childs := some fresh }, .done ())

/-- Where a thread is in `inode_get_idx_by_path`, with the locals it goes on from. -/
inductive ThreadPoint where
  | cached (path : List UInt8) (ret : Option Nat)
  | lookup (path : List UInt8) (pathLen : Nat) (ret : Option Nat) (point : LookupPoint)
  | getInode (path : List UInt8) (ret : Option Nat)
  | walk (path : List UInt8) (inodeIdx : Nat) (dcEntry : Option Nat)
  | insert (path : List UInt8) (inodeIdx parent fresh : Nat) (point : InsertPoint)
  | done (inodeIdx : Nat)
deriving DecidableEq, Repr

def nextComponent (path : List UInt8) (inodeIdx : Nat) (dcEntry : Option Nat) : ThreadPoint :=
  match strchr path slash with
  | none => .done inodeIdx
  | some path => .walk path inodeIdx dcEntry

/-- The part of `dcache_insert` in front of the test of `parent->childs`. Nobody else has the new entry. -/
def dcacheInsertAlloc (d : Dcache) (dcEntry : Option Nat) (path : List UInt8) (pathLen n : Nat) :
    Exec Fault (Dcache × ThreadPoint) :=
  if pathLen + 1 > dcacheEntryNameLen then return (d, nextComponent path n none)
  else do
    let above ← d.load (dcEntry.getD 0)
    Exec.check (dcEntry ≠ none ∨ above.inode ≠ 0) .assertFailed
    return (⟨d.entries ++ [⟨none, none, n, path.take pathLen⟩]⟩,
      .insert path n (dcEntry.getD 0) d.entries.length .test)

-- The disk is only read, and the buffer of a lookup is its own.
def walkStep (fs : Fs) (d : Dcache) (path : List UInt8) (inodeIdx : Nat) (dcEntry : Option Nat) (fuel : Nat) :
    Exec Fault (Dcache × ThreadPoint) := do
  let path := skipTrailingBackslash path
  let pathLen ← getPathTokenLen path fuel
  if pathLen = 0 then return (d, .done inodeIdx)
  else do
    match ← searchDir fs inodeIdx path pathLen fuel with
    | (_, none) => return (d, .done 0)
    | (true, some n) => dcacheInsertAlloc d dcEntry path pathLen n
    | (false, some n) => return (d, nextComponent path n dcEntry)

def threadStep (fs : Fs) (d : Dcache) : ThreadPoint → Nat → Exec Fault (Dcache × ThreadPoint)
  | .cached path ret, fuel => do
      let path := if path.getD 0 0 = slash then path.drop 1 else path
      let pathLen ← getPathTokenLen path fuel
      return (d, if pathLen = 0 then .getInode path ret else .lookup path pathLen ret .test)
  | .lookup path pathLen ret point, _ => do
      match ← dcacheLookupStep (ret.getD 0) path pathLen d point with
      | (d, .again point) => return (d, .lookup path pathLen ret point)
      | (d, .done none) => return (d, .getInode path ret)
      | (d, .done (some next)) => return (d, .cached (path.drop pathLen) (some next))
  | .getInode path ret, _ => do
      let inodeIdx ← dcacheGetInode d ret
      return (d, .walk path inodeIdx ret)
  | .walk path inodeIdx dcEntry, fuel => walkStep fs d path inodeIdx dcEntry fuel
  | .insert path inodeIdx parent fresh point, _ => do
      match ← dcacheInsertStep parent fresh d point with
      | (d, .again point) => return (d, .insert path inodeIdx parent fresh point)
      | (d, .done _) => return (d, nextComponent path inodeIdx (some fresh))
  | .done inodeIdx, _ => return (d, .done inodeIdx)

/-- A call of `inode_get_idx_by_path` with the path it was made with. -/
structure Thread where
  arg : List UInt8
  point : ThreadPoint
deriving DecidableEq, Repr

def callThread (path : List UInt8) : Thread := ⟨path, .cached path none⟩

def threadMoves (fs : Fs) (d : Dcache) (t : Thread) (d' : Dcache) (t' : Thread) : Prop :=
  ∃ point, Exec.Returns (threadStep fs d t.point) (d', point) ∧ t' = { t with point }

def cacheThreads (fs : Fs) : System (Pool Dcache Thread) (PoolEvent (List UInt8)) Unit :=
  interleaved callThread (threadMoves fs)

end SampleFs.Fuse

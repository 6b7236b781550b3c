import SampleFs.Lib.Logged
import SampleFs.Fuse.Extents

/-!
# The reads of an extent lookup

The lookup once more, with every header and every entry that it looks at. An entry is read as a whole,
and logged before it is read.
-/

namespace SampleFs.Fuse
open Lib

/-- A read of the node in a block, or of the root in `i_block`. -/
structure NodeRead where
  block : Option Nat
  pos : Nat
  width : Nat
deriving DecidableEq, Repr

def headerRead (block : Option Nat) : NodeRead := ⟨block, 0, extentHeaderBytes⟩

def entryRead (block : Option Nat) (i : Nat) : NodeRead := ⟨block, extentHeaderBytes + extentBytes * i, extentBytes⟩

def extentScanReads (block : Option Nat) (node : List UInt8) (lblock len : Nat) :
    (left i : Nat) → Logged NodeRead Fault (Nat × Nat)
  | 0, _ => return (0, len)
  | left + 1, i => do
      Logged.tell (entryRead block i)
      let ee ← Logged.lift (extentAt node i)
      Logged.lift (Exec.check (ee.startHi = 0) .assertFailed)
      if (ee.block + ee.len) % 2 ^ 32 > lblock then
        return ((ee.startLo + sub32 lblock ee.block) % 2 ^ 32, sub32 (ee.block + ee.len) lblock)
      else extentScanReads block node lblock len left (i + 1)

def indexScanReads (block : Option Nat) (node : List UInt8) (lblock : Nat) :
    (left i : Nat) → Option ExtentIdx → Logged NodeRead Fault (Option ExtentIdx)
  | 0, _, recurseEi => return recurseEi
  | left + 1, i, recurseEi => do
      Logged.tell (entryRead block i)
      let ei ← Logged.lift (extentIdxAt node i)
      Logged.lift (Exec.check (ei.leafHi = 0) .assertFailed)
      if ei.block > lblock then return recurseEi
      else indexScanReads block node lblock left (i + 1) (some ei)

def extentGetPblockReads (fs : Fs) (lblock len : Nat) :
    (fuel : Nat) → (block : Option Nat) → List UInt8 → Logged NodeRead Fault (Nat × Nat)
  | 0, _, _ => Logged.lift .timeout
  | fuel + 1, block, extents => do
      Logged.tell (headerRead block)
      let eh ← Logged.lift (extentHeader extents)
      Logged.lift (Exec.check (eh.magic = ext4ExtMagic) .assertFailed)
      if eh.depth = 0 then extentScanReads block extents lblock len eh.entries 0
      else
        match ← indexScanReads block extents lblock eh.entries 0 none with
        | none => Logged.lift (.fail .assertFailed)
        | some recurseEi =>
            let leafExtents ← Logged.lift (extentGetExtentsInBlock fs recurseEi.leafLo)
            extentGetPblockReads fs lblock len fuel (some recurseEi.leafLo) leafExtents

end SampleFs.Fuse

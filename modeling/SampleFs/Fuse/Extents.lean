import SampleFs.Fuse.Super

namespace SampleFs.Fuse
open Lib

def ext4ExtMagic : Nat := 0xf30a
def extentHeaderBytes : Nat := 12
def extentBytes : Nat := 12

structure ExtentHeader where
  magic : Nat
  entries : Nat
  depth : Nat
deriving DecidableEq, Repr

structure Extent where
  block : Nat
  len : Nat
  startHi : Nat
  startLo : Nat
deriving DecidableEq, Repr

structure ExtentIdx where
  block : Nat
  leafLo : Nat
  leafHi : Nat
deriving DecidableEq, Repr

def extentHeader (node : List UInt8) : Exec Fault ExtentHeader := do
  return { magic := ← load node 0 2, entries := ← load node 2 2, depth := ← load node 6 2 }

def extentAt (node : List UInt8) (i : Nat) : Exec Fault Extent := do
  let pos := extentHeaderBytes + extentBytes * i
  return {
    block := ← load node pos 4
    len := ← load node (pos + 4) 2
    startHi := ← load node (pos + 6) 2
    startLo := ← load node (pos + 8) 4 }

def extentIdxAt (node : List UInt8) (i : Nat) : Exec Fault ExtentIdx := do
  let pos := extentHeaderBytes + extentBytes * i
  return {
    block := ← load node pos 4
    leafLo := ← load node (pos + 4) 4
    leafHi := ← load node (pos + 8) 2 }

def sub32 (a b : Nat) : Nat := (a + (2 ^ 32 - b % 2 ^ 32)) % 2 ^ 32

/-- The loop of `extent_get_block_from_ees` from entry `i` on, with `left` entries to go. The value
of `*len` comes in and is left alone unless an entry matches. -/
def extentScan (node : List UInt8) (lblock len : Nat) : (left i : Nat) → Exec Fault (Nat × Nat)
  | 0, _ => return (0, len)
  | left + 1, i => do
      let ee ← extentAt node i
      Exec.check (ee.startHi = 0) .assertFailed
      if (ee.block + ee.len) % 2 ^ 32 > lblock then
        return ((ee.startLo + sub32 lblock ee.block) % 2 ^ 32, sub32 (ee.block + ee.len) lblock)
      else extentScan node lblock len left (i + 1)

def extentGetBlockFromEes (node : List UInt8) (nEe lblock len : Nat) : Exec Fault (Nat × Nat) :=
  extentScan node lblock len nEe 0

def extentGetExtentsInBlock (fs : Fs) (block : Nat) : Exec Fault (List UInt8) := do
  let eh ← diskRead fs.disk (fs.super.blocks2Bytes block) extentHeaderBytes
  let entries ← load eh 2 2
  diskRead fs.disk (fs.super.blocks2Bytes block) (entries * extentBytes + extentHeaderBytes)

def indexScan (node : List UInt8) (lblock : Nat) :
    (left i : Nat) → Option ExtentIdx → Exec Fault (Option ExtentIdx)
  | 0, _, recurseEi => return recurseEi
  | left + 1, i, recurseEi => do
      let ei ← extentIdxAt node i
      Exec.check (ei.leafHi = 0) .assertFailed
      if ei.block > lblock then return recurseEi
      else indexScan node lblock left (i + 1) (some ei)

def extentGetPblock (fs : Fs) (lblock len : Nat) : (fuel : Nat) → List UInt8 → Exec Fault (Nat × Nat)
  | 0, _ => .timeout
  | fuel + 1, extents => do
      let eh ← extentHeader extents
      Exec.check (eh.magic = ext4ExtMagic) .assertFailed
      if eh.depth = 0 then extentGetBlockFromEes extents eh.entries lblock len
      else
        match ← indexScan extents lblock eh.entries 0 none with
        | none => .fail .assertFailed
        | some recurseEi =>
            let leafExtents ← extentGetExtentsInBlock fs recurseEi.leafLo
            extentGetPblock fs lblock len fuel leafExtents

end SampleFs.Fuse

import Mathlib.Logic.Function.Basic
import SampleFs.Lib.Exec

/-!
# The teardown of `base/c_hashmap.c`

`c_hashmap_deinit` frees the pairs of a chain while it walks it, so here the pairs are nodes in memory
that point to each other, each of which is there until it is freed. Reading or freeing one that is
gone is a fault.
-/

namespace SampleFs.Base
open Lib

structure PairNode where
  key : Nat
  val : Nat
  next : Option Nat
deriving DecidableEq, Repr

/-- The map with its pairs by address. What `free` and the two callbacks are given is recorded. -/
structure MapMemory where
  allocated : Bool
  maxCount : Nat
  curCount : Nat
  ptr : List (Option Nat)
  keyFreeCb : Bool
  valFreeCb : Bool
  pairs : Nat → Option PairNode
  released : List Nat
  keysFreed : List Nat
  valsFreed : List Nat

namespace MapMemory

def readPair (m : MapMemory) (pair : Nat) : Exec Fault PairNode :=
  match m.pairs pair with
  | some node => .ok node
  | none => .fail .useAfterFree

def head (m : MapMemory) (i : Nat) : Exec Fault (Option Nat) :=
  match m.ptr[i]? with
  | some head => .ok head
  | none => .fail .outOfBounds

def drop (m : MapMemory) (pair : Nat) (node : PairNode) : MapMemory :=
  { m with
    pairs := Function.update m.pairs pair none
    released := m.released ++ [pair]
    keysFreed := if m.keyFreeCb then m.keysFreed ++ [node.key] else m.keysFreed
    valsFreed := if m.valFreeCb then m.valsFreed ++ [node.val] else m.valsFreed }

end MapMemory

def cMemberPairFree (m : MapMemory) (pair : Nat) : Exec Fault MapMemory := do
  let node ← m.readPair pair
  return m.drop pair node

structure TeardownState where
  m : MapMemory
  tmp : Option Nat

def teardownPass (s : TeardownState) : Exec Fault (Pass TeardownState MapMemory) :=
  match s.tmp with
  | none => return .done s.m
  | some tmp => do
      let node ← s.m.readPair tmp
      let m ← cMemberPairFree s.m tmp
      return .again { m, tmp := node.next }

def teardownBucket (fuel : Nat) (m : MapMemory) (i : Nat) : Exec Fault MapMemory := do
  let tmp ← m.head i
  Exec.loop teardownPass fuel { m, tmp }

-- The heads and the counter are left as they are.
def cHashmapDeinit (m : MapMemory) (fuel : Nat) : Exec Fault (Int × MapMemory) := do
  Exec.check (m.allocated = true) .useAfterFree
  if 0 < m.curCount then do
    let m ← (List.range m.maxCount).foldlM (teardownBucket fuel) m
    return (0, m)
  else return (-1, m)

def cHashmapDestroy (m : MapMemory) (fuel : Nat) : Exec Fault MapMemory := do
  let (result, m) ← cHashmapDeinit m fuel
  if result ≠ -1 then return { m with allocated := false } else return m

end SampleFs.Base

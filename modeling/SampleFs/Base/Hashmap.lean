import SampleFs.Lib.Exec
import SampleFs.Lib.Chain
import SampleFs.Base.JumpHash

/-!
# `base/c_hashmap.c` and `base/c_hashmap.h`

A key or value argument is the memory behind its pointer (`none` for `NULL`) and its size is a
separate argument, as in the source. `ptr` is the bucket array: its length is what was allocated, and
an access past it is a fault.
-/

namespace SampleFs.Base
open Lib

abbrev Bytes := List UInt8

structure CMemberPair where
  key : Bytes
  val : Bytes
deriving DecidableEq, Repr

structure CHashmap where
  maxCount : Nat
  curCount : Nat
  ptr : List (List CMemberPair)
  hashCb : Bytes → Nat → UInt32
  cmpCb : Bytes → Bytes → Nat → Int
  keyFreeCb : Bool
  valFreeCb : Bool

def memcpy (src : Bytes) (n : Nat) : Exec Fault Bytes :=
  if n ≤ src.length then .ok (src.take n) else .fail .outOfBounds

-- the value buffer is filled from the key
def cMemberPairAlloc (key : Bytes) (keySz valSz : Nat) : Exec Fault CMemberPair := do
  let keyData ← memcpy key keySz
  let valData ← memcpy key valSz
  pure ⟨keyData, valData⟩

def cHashmapJumpConsistent (key numBuckets : Nat) : Nat := jumpConsistent jumpStep key numBuckets

def cHashmapSearch (d : CHashmap) (chain : List CMemberPair) (key : Bytes) (keySz : Nat) :
    Option (Chain.Found CMemberPair) :=
  Chain.search (fun tmp => decide (d.cmpCb tmp.key key keySz = 0)) chain

-- `index` is a `uint32_t`
def cHashmapGetIndex (d : CHashmap) (key : Bytes) (keySz : Nat) : Nat :=
  cHashmapJumpConsistent (d.hashCb key keySz).toNat d.maxCount % 2 ^ 32

def cHashmapBucket (d : CHashmap) (index : Nat) : Exec Fault (List CMemberPair) :=
  match d.ptr[index]? with
  | some chain => .ok chain
  | none => .fail .outOfBounds

def cHashmapSetFreeCb (d : CHashmap) (keyFreeCb valFreeCb : Bool) : CHashmap :=
  { d with keyFreeCb := keyFreeCb, valFreeCb := valFreeCb }

/-- The structure comes from `calloc`, so the field that is not assigned holds zero. -/
def cHashmapInit (d : CHashmap) (maxCount : Nat) (hashCb : Bytes → Nat → UInt32)
    (cmpCb : Bytes → Bytes → Nat → Int) : CHashmap :=
  { d with
    ptr := List.replicate maxCount []
    hashCb := hashCb
    cmpCb := cmpCb
    curCount := 0
    keyFreeCb := false
    valFreeCb := false }

def cHashmapAlloc (maxCount : Nat) (hashCb : Bytes → Nat → UInt32)
    (cmpCb : Bytes → Bytes → Nat → Int) : Option CHashmap :=
  if 0 < maxCount then
    some (cHashmapInit ⟨0, 0, [], fun _ _ => 0, fun _ _ _ => 0, false, false⟩ maxCount hashCb cmpCb)
  else none

def cHashmapPut (d : CHashmap) (key : Option Bytes) (keySz : Nat) (value : Option Bytes)
    (valueSz : Nat) : Exec Fault (Int × CHashmap) :=
  match key, value with
  | some key, some _ =>
      if 0 < keySz ∧ 0 < valueSz ∧ d.curCount < d.maxCount then do
        let _ ← cMemberPairAlloc key keySz valueSz
        -- the pair is given two zeroed buffers of `sizeof(char *)` times the sizes instead
        let pair : CMemberPair := ⟨List.replicate (8 * keySz) 0, List.replicate (8 * valueSz) 0⟩
        let index := cHashmapGetIndex d key keySz
        let chain ← cHashmapBucket d index
        pure (0, { d with ptr := d.ptr.set index (pair :: chain), curCount := d.curCount + 1 })
      else .ok (-1, d)
  | _, _ => .ok (-1, d)

def cHashmapGet (d : CHashmap) (key : Bytes) (keySz : Nat) : Exec Fault (Option Bytes) :=
  if 0 < d.curCount then do
    let chain ← cHashmapBucket d (cHashmapGetIndex d key keySz)
    pure ((cHashmapSearch d chain key keySz).map fun found => found.here.val)
  else .ok none

def cHashmapDel (d : CHashmap) (key : Option Bytes) (keySz : Nat) : Exec Fault (Int × CHashmap) :=
  match key with
  | none => .ok (-1, d)
  | some key => do
      let index := cHashmapGetIndex d key keySz
      let chain ← cHashmapBucket d index
      match cHashmapSearch d chain key keySz with
      | some found =>
          pure (0, { d with
            ptr := d.ptr.set index (found.before ++ found.after)
            curCount := d.curCount - 1 })
      | none => pure (0, d)

/-- The result code with the pairs that `traverse_cb` is called on, in order. -/
def cHashmapTraverse (d : CHashmap) (traverseCb : Bool) : Exec Fault (Int × List CMemberPair) :=
  if 0 < d.curCount then do
    let chains ← (List.range d.maxCount).mapM (cHashmapBucket d)
    pure (0, if traverseCb then chains.flatten else [])
  else .ok (-1, [])

def cHashmapCount (d : CHashmap) : Nat := d.curCount

def cHashmapEmpty (d : CHashmap) : Bool := if d.curCount ≤ 0 then false else true

end SampleFs.Base

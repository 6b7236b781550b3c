import SampleFs.Lib.CInt
import SampleFs.Lib.CString
import SampleFs.Lib.Chain
import SampleFs.Base.CHash
import SampleFs.Base.JumpHash
import Mathlib.Logic.Function.Basic

/-!
# `metaserver/dict.c`

A table of `maxCount` chains. `members` and `memberCount` are the two arrays that `dict_init`
allocates with `maxCount` slots; `dictIndex_lt` says that every access is inside them.
-/

namespace SampleFs.Metaserver
open Lib

structure DictDataPair (V : Type) where
  key : CString
  val : V
deriving DecidableEq, Repr

structure Dict (V : Type) where
  maxCount : Nat
  count : Nat
  memberCount : Nat → Nat
  members : Nat → List (DictDataPair V)
  hashFn : CString → UInt32

variable {V : Type}

def dictJumpConsistent (key numBuckets : Nat) : Nat :=
  Base.jumpConsistent Base.jumpStep key numBuckets

-- Plain `char` is taken as signed here.
def dictDefaultHashFn (key : CString) : UInt32 := Base.PlainChar.signed.dictDefaultHashFn key.bytes

def dictInit (maxCount : Nat) (hashFn : CString → UInt32) : Dict V where
  maxCount := maxCount
  count := 0
  memberCount := fun _ => 0
  members := fun _ => []
  hashFn := hashFn

def dictCreate (maxCount : Nat) (hashFn : CString → UInt32) : Dict V := dictInit maxCount hashFn

def dictIndex (d : Dict V) (key : CString) : Nat :=
  dictJumpConsistent (d.hashFn key).toNat d.maxCount

theorem dictIndex_lt (d : Dict V) (key : CString) (pos : 0 < d.maxCount) :
    dictIndex d key < d.maxCount :=
  Base.jumpConsistent_lt _ _ pos

/-- The pair that the search stops at, with the pairs before it (the last of them is `prev`) and
after it. -/
def dictFind (d : Dict V) (key : CString) : Option (Chain.Found (DictDataPair V)) :=
  if 0 < d.memberCount (dictIndex d key) then
    Chain.search (fun cur => decide (strncmp cur.key.bytes key.bytes key.strlen = 0))
      (d.members (dictIndex d key))
  else none

-- `__sync_fetch_and_add` and `__sync_fetch_and_sub` on a `uint32_t`
def addOne (n : Nat) : Nat := if n + 1 = 2 ^ 32 then 0 else n + 1
def subOne (n : Nat) : Nat := if n = 0 then 2 ^ 32 - 1 else n - 1

/-- `NULL`, or the address of the new value slot, given here by what it holds. -/
def dictPut (d : Dict V) (key : CString) (val : V) : Option V × Dict V :=
  match dictFind d key with
  | some _ => (none, d)
  | none =>
      let index := dictIndex d key
      (some val, { d with
        members := Function.update d.members index (⟨key, val⟩ :: d.members index)
        memberCount := Function.update d.memberCount index (addOne (d.memberCount index))
        count := addOne d.count })

def dictGet (d : Dict V) (key : CString) : Option V :=
  (dictFind d key).map fun found => found.here.val

/-- The result code, the value handed to the free function, and the table. -/
def dictDel (d : Dict V) (key : CString) : Int × Option V × Dict V :=
  match dictFind d key with
  | some found =>
      let index := dictIndex d key
      (0, some found.here.val, { d with
        members := Function.update d.members index (found.before ++ found.after)
        memberCount := Function.update d.memberCount index (subOne (d.memberCount index))
        count := subOne d.count })
  | none => (-1, none, d)

/-- A value pointer together with the address of the slot `dict_put` stores it in. -/
structure Slot (P : Type) where
  val : P
  addr : P
deriving DecidableEq, Repr

/-- What `dict_deinit` hands to its free function, in order: the addresses of the slots, where
`dict_del` hands over the values in them. -/
def dictDeinitFreed {P : Type} (d : Dict (Slot P)) : List P :=
  (List.range d.maxCount).flatMap fun i =>
    if 0 < d.memberCount i then (d.members i).map fun dp => dp.val.addr else []

inductive DictCall (V : Type) where
  | put (key : CString) (val : V)
  | get (key : CString)
  | del (key : CString)

inductive DictReply (V : Type) where
  | put (slot : Option V)
  | get (val : Option V)
  | del (ret : Int) (freed : Option V)
deriving DecidableEq

def DictCall.key : DictCall V → CString
  | .put key _ => key
  | .get key => key
  | .del key => key

def dictCall (d : Dict V) : DictCall V → DictReply V × Dict V
  | .put key val => (.put (dictPut d key val).1, (dictPut d key val).2)
  | .get key => (.get (dictGet d key), d)
  | .del key => (.del (dictDel d key).1 (dictDel d key).2.1, (dictDel d key).2.2)

end SampleFs.Metaserver

import SampleFs.Lib.LinkedList
import SampleFs.Metaserver.Dict

/-!
# `metaserver/dict.c` in memory

The table as the code has it: every entry is a block with a `next` pointer and a second block with the
copy of its key that `strdup` makes. Values are not looked into.
-/

namespace SampleFs.Metaserver
open Lib

/-- A `dict_data_pair` without its `next`. -/
structure DataPair (V : Type) where
  key : Nat
  val : V
deriving DecidableEq, Repr

structure DictMemory (V : Type) where
  pairs : Heap (Cell (DataPair V))
  keys : Heap CString
  maxCount : Nat
  count : Nat
  memberCount : Nat → Nat
  members : Nat → Option Nat
  hashFn : CString → UInt32

namespace DictMemory
variable {V : Type}

def dictCreate (maxCount : Nat) (hashFn : CString → UInt32) : DictMemory V where
  pairs := .empty
  keys := .empty
  maxCount := maxCount
  count := 0
  memberCount := fun _ => 0
  members := fun _ => none
  hashFn := hashFn

def setNext (m : DictMemory V) (dp : Nat) (next : Option Nat) : Exec Fault (DictMemory V) := do
  let cell ← m.pairs.load dp
  let pairs ← m.pairs.store dp { cell with next := next }
  return { m with pairs := pairs }

def setMember (m : DictMemory V) (index : Nat) (head : Option Nat) : DictMemory V :=
  { m with members := Function.update m.members index head }

def countUp (m : DictMemory V) (index : Nat) : DictMemory V :=
  { m with
    memberCount := Function.update m.memberCount index (addOne (m.memberCount index))
    count := addOne m.count }

def countDown (m : DictMemory V) (index : Nat) : DictMemory V :=
  { m with
    memberCount := Function.update m.memberCount index (subOne (m.memberCount index))
    count := subOne m.count }

def dictDataPairCreate (m : DictMemory V) (key : CString) (val : V) : Nat × DictMemory V :=
  let (copy, keys) := m.keys.malloc key
  let (dp, pairs) := m.pairs.malloc ⟨none, ⟨copy, val⟩⟩
  (dp, { m with pairs := pairs, keys := keys })

structure Search where
  prev : Option Nat
  cur : Option Nat
deriving DecidableEq, Repr

def findPass (m : DictMemory V) (key : CString) (s : Search) : Exec Fault (Pass Search Search) :=
  match s.cur with
  | none => return .done s
  | some cur => do
      let cell ← m.pairs.load cur
      let stored ← m.keys.load cell.content.key
      if strncmp stored.bytes key.bytes key.strlen = 0 then return .done s
      else return .again { prev := some cur, cur := cell.next }

def dictIndex (m : DictMemory V) (key : CString) : Nat := dictJumpConsistent (m.hashFn key).toNat m.maxCount

/-- The pair that is found is `cur`, and `prev` the one before it in its chain. -/
def dictFind (m : DictMemory V) (key : CString) (fuel : Nat) : Exec Fault Search :=
  if 0 < m.memberCount (m.dictIndex key) then
    Exec.loop (m.findPass key) fuel { prev := none, cur := m.members (m.dictIndex key) }
  else return { prev := none, cur := none }

def push (m : DictMemory V) (index data : Nat) : Exec Fault (DictMemory V) :=
  match m.members index with
  | none => return m.setMember index (some data)
  | some first => do
      let m ← m.setNext data (some first)
      return m.setMember index (some data)

/-- `NULL`, or the pair whose slot is handed out. -/
def dictPut (m : DictMemory V) (key : CString) (val : V) (fuel : Nat) : Exec Fault (Option Nat × DictMemory V) := do
  let index := m.dictIndex key
  let found ← m.dictFind key fuel
  match found.cur with
  | some _ => return (none, m)
  | none => do
      let (data, m) := m.dictDataPairCreate key val
      let m ← m.push index data
      return (some data, m.countUp index)

def dictGet (m : DictMemory V) (key : CString) (fuel : Nat) : Exec Fault (Option V) := do
  let found ← m.dictFind key fuel
  match found.cur with
  | none => return none
  | some dp => do
      let cell ← m.pairs.load dp
      return some cell.content.val

def unlink (m : DictMemory V) (index : Nat) (prev next : Option Nat) : Exec Fault (DictMemory V) :=
  match prev with
  | none => return m.setMember index next
  | some prev => m.setNext prev next

/-- The result code, the value handed to the free function, and the memory. -/
def dictDel (m : DictMemory V) (key : CString) (fuel : Nat) : Exec Fault (Int × Option V × DictMemory V) := do
  let index := m.dictIndex key
  let found ← m.dictFind key fuel
  match found.cur with
  | none => return (-1, none, m)
  | some dp => do
      let cell ← m.pairs.load dp
      let m ← m.unlink index found.prev cell.next
      let m ← m.setNext dp none
      let keys ← m.keys.free cell.content.key
      let pairs ← m.pairs.free dp
      return (0, some cell.content.val, { m with pairs := pairs, keys := keys }.countDown index)

/-! ## Walks over the table -/

/-- What the callback of `dict_dump` is given: the key, and the pair whose slot it gets. -/
structure Visit where
  key : Nat
  data : Nat
deriving DecidableEq, Repr

structure DumpState where
  visits : List Visit
  cur : Option Nat

def dumpPass (m : DictMemory V) (s : DumpState) : Exec Fault (Pass DumpState (List Visit)) :=
  match s.cur with
  | none => return .done s.visits
  | some dp => do
      let cell ← m.pairs.load dp
      return .again { visits := s.visits ++ [⟨cell.content.key, dp⟩], cur := cell.next }

def dumpBucket (m : DictMemory V) (fuel : Nat) (visits : List Visit) (i : Nat) : Exec Fault (List Visit) :=
  if 0 < m.memberCount i then Exec.loop m.dumpPass fuel { visits := visits, cur := m.members i }
  else return visits

def dictDump (m : DictMemory V) (fuel : Nat) : Exec Fault (List Visit) :=
  (List.range m.maxCount).foldlM (m.dumpBucket fuel) []

/-- `context` is what `free_cb` works on besides the table. -/
structure DeinitState (σ V : Type) where
  context : σ
  memory : DictMemory V
  cur : Option Nat

section
-- the callback is given the pair whose slot it gets, between the two calls of `free`
variable {σ : Type} (freeCb : Nat → σ × DictMemory V → Exec Fault (σ × DictMemory V))

def deinitPass (i : Nat) (s : DeinitState σ V) : Exec Fault (Pass (DeinitState σ V) (σ × DictMemory V)) :=
  match s.cur with
  | none => return .done (s.context, s.memory)
  | some dp => do
      let cell ← s.memory.pairs.load dp
      let keys ← s.memory.keys.free cell.content.key
      let (context, m) ← freeCb dp (s.context, { s.memory with keys := keys })
      let pairs ← m.pairs.free dp
      return .again {
        context := context
        memory := { m with pairs := pairs }.countDown i
        cur := cell.next }

def deinitBucket (fuel : Nat) (state : σ × DictMemory V) (i : Nat) : Exec Fault (σ × DictMemory V) :=
  if 0 < state.2.memberCount i then
    Exec.loop (deinitPass freeCb i) fuel { context := state.1, memory := state.2, cur := state.2.members i }
  else return state

def dictDeinit (context : σ) (m : DictMemory V) (fuel : Nat) : Exec Fault (σ × DictMemory V) :=
  (List.range m.maxCount).foldlM (deinitBucket freeCb fuel) (context, m)

end

/-- A callback that keeps the slots it is given. -/
def keepSlot (dp : Nat) (state : List Nat × DictMemory V) : Exec Fault (List Nat × DictMemory V) :=
  .ok (state.1 ++ [dp], state.2)

/-! ## Runs -/

def readSlot (m : DictMemory V) : Option Nat → Exec Fault (Option V)
  | none => return none
  | some dp => do
      let cell ← m.pairs.load dp
      return some cell.content.val

/-- A caller that looks through the pointer `dict_put` returns. -/
def call (m : DictMemory V) (fuel : Nat) : DictCall V → Exec Fault (DictReply V × DictMemory V)
  | .put key val => do
      let (slot, m) ← m.dictPut key val fuel
      let held ← m.readSlot slot
      return (.put held, m)
  | .get key => do
      let val ← m.dictGet key fuel
      return (.get val, m)
  | .del key => do
      let (ret, freed, m) ← m.dictDel key fuel
      return (.del ret freed, m)

def serve (fuel : Nat) (m : DictMemory V) : List (DictCall V) → Exec Fault (List (DictReply V) × DictMemory V)
  | [] => return ([], m)
  | request :: rest => do
      let (reply, m) ← m.call fuel request
      let (replies, m) ← serve fuel m rest
      return (reply :: replies, m)

end DictMemory

end SampleFs.Metaserver

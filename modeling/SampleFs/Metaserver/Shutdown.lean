import SampleFs.Metaserver.DictMemory
import SampleFs.Metaserver.KvDb

/-!
# Shutting down the store

`kv_db_destroy` frees the chains of the registry while it walks them, and its callback deletes from
the same registry. So the registry is here what it is in memory, beside the schemas that are live.
-/

namespace SampleFs.Metaserver
open Lib

/-- What `kv_schema_destroy` is called with: a handle, or the address of the slot that holds one. -/
inductive SchemaPtr where
  | handle (h : Handle)
  | slot (node : Nat)
deriving DecidableEq, Repr

/-- `destroyed` records the calls of `kv_schema_destroy` that have come to their end. -/
structure SchemaHeap where
  schemas : Handle → Option KvSchema
  destroyed : List SchemaPtr

namespace SchemaHeap

def load (s : SchemaHeap) (h : Handle) : Exec Fault KvSchema :=
  match s.schemas h with
  | some content => .ok content
  | none => .fail .useAfterFree

-- the strings `uri` and `name` go with their schema
def free (s : SchemaHeap) (h : Handle) : Exec Fault SchemaHeap := do
  let _ ← s.load h
  return { s with schemas := Function.update s.schemas h none }

end SchemaHeap

abbrev DbMemory := SchemaHeap × DictMemory Handle

/-! ## `kv_schema_destroy` -/

def kvSchemaBytes : Nat := 40
def kvSchemaCtxOffset : Nat := 16
def dictDataPairBytes : Nat := 24
def dictDataPairValOffset : Nat := 16

-- from the pointer to the end of the block it points into
def SchemaPtr.room : SchemaPtr → Nat
  | .handle _ => kvSchemaBytes
  | .slot _ => dictDataPairBytes - dictDataPairValOffset

def SchemaPtr.readBlock (m : DbMemory) : SchemaPtr → Exec Fault Unit
  | .handle h => do
      let _ ← m.1.load h
      return ()
  | .slot node => do
      let _ ← m.2.pairs.load node
      return ()

def kvSchemaDestroyInMemory (m : DbMemory) (ptr : SchemaPtr) (fuel : Nat) : Exec Fault DbMemory := do
  ptr.readBlock m
  -- `schema->ctx` is the first field that is read
  Exec.check (kvSchemaCtxOffset + 8 ≤ ptr.room) .outOfBounds
  match ptr with
  | .slot _ => .fail .outOfBounds
  | .handle h => do
      let schema ← m.1.load h
      let (_, _, registry) ← m.2.dictDel schema.name fuel
      let schemas ← m.1.free h
      return ({ schemas with destroyed := schemas.destroyed ++ [ptr] }, registry)

/-! ## `kv_db_destroy` -/

-- `dict_deinit` gives the callback the address of the value slot, where `dict_del` gives the value.
def kvSchemaFreeCb (fuel node : Nat) (m : DbMemory) : Exec Fault DbMemory := kvSchemaDestroyInMemory m (.slot node) fuel

def kvDbDestroy (m : DbMemory) (fuel : Nat) : Exec Fault DbMemory :=
  DictMemory.dictDeinit (kvSchemaFreeCb fuel) m.1 m.2 fuel

end SampleFs.Metaserver

import SampleFs.Lib.Exec
import SampleFs.Metaserver.Dict

/-!
# `metaserver/kv_db.c`

WiredTiger is not part of the repository. It is taken as what the code relies on: tables of byte
strings named by URI, an idempotent `create`, cursors bound to their table, an `insert` that
overwrites. What `remove` answers for a missing record depends on the cursor's `overwrite` setting
and on the version, and is the parameter `removeMissing`. What `drop` does depends on its
configuration, and belongs to the connection. Its errors are positive or below -31799, and the code
only compares them with -1. Sessions are not counted: `session_max=50000` leaves one for each schema.
-/

namespace SampleFs.Metaserver
open Lib

abbrev Bytes := List UInt8
abbrev Table := Bytes → Option Bytes

/-- `dropped` gives the tables after `drop` of a URI with a configuration, and is told whether another
cursor is open on the table. -/
structure WiredTiger where
  tables : CString → Option Table
  dropped : (CString → Option Table) → CString → String → Bool → CString → Option Table

def schemaFormat : String := "key_format=u,value_format=u"

def removeFiles : String := "remove_files=true"

-- `WT_NOTFOUND` and `WT_ERROR`
def wtNotFound : Int := -31803
def wtError : Int := -31802

namespace WiredTiger

def create (conn : WiredTiger) (uri : CString) : WiredTiger :=
  match conn.tables uri with
  | some _ => conn
  | none => { conn with tables := Function.update conn.tables uri (some fun _ => none) }

def drop (conn : WiredTiger) (uri : CString) (config : String) (busy : Bool) : WiredTiger :=
  { conn with tables := conn.dropped conn.tables uri config busy }

def insert (conn : WiredTiger) (uri : CString) (key val : Bytes) : Int × WiredTiger :=
  match conn.tables uri with
  | some table => (0, { conn with tables := Function.update conn.tables uri (some (Function.update table key (some val))) })
  | none => (wtError, conn)

def search (conn : WiredTiger) (uri : CString) (key : Bytes) : Int × Option Bytes :=
  match conn.tables uri with
  | some table => match table key with
      | some val => (0, some val)
      | none => (wtNotFound, none)
  | none => (wtError, none)

def remove (removeMissing : Int) (conn : WiredTiger) (uri : CString) (key : Bytes) : Int × WiredTiger :=
  match conn.tables uri with
  | some table => match table key with
      | some _ => (0, { conn with tables := Function.update conn.tables uri (some (Function.update table key none)) })
      | none => (removeMissing, conn)
  | none => (wtError, conn)

end WiredTiger

structure KvSchema where
  uri : CString
  name : CString
deriving DecidableEq

abbrev Handle := Nat

/-- `schemas` is the heap of handles: what a handle points to until it is freed. -/
structure KvDb where
  schemaCtx : Dict Handle
  conn : WiredTiger
  schemas : Handle → Option KvSchema
  nextHandle : Handle

def schemaLimit : Nat := 1024

def kvDbAlloc (hashFn : CString → UInt32) (conn : WiredTiger) : KvDb where
  schemaCtx := dictCreate schemaLimit hashFn
  conn := conn
  schemas := fun _ => none
  nextHandle := 0

def tablePrefix : CString := ⟨[116, 97, 98, 108, 101, 58], by decide⟩

-- `snprintf(schema_buf, 256, "table:%s", schema_name)`
def schemaUri (name : CString) : CString := CString.snprintf 256 (tablePrefix ++ name)

def kvDbRegisterSchema (db : KvDb) (handle : Handle) (name : CString) : Int × KvDb :=
  match dictPut db.schemaCtx name handle with
  | (some _, registry) => (0, { db with schemaCtx := registry })
  | (none, registry) => (-1, { db with schemaCtx := registry })

def kvDbUnregisterSchema (db : KvDb) (name : CString) : KvDb :=
  { db with schemaCtx := (dictDel db.schemaCtx name).2.2 }

def cursorOpen (db : KvDb) (self : Handle) (uri : CString) : Bool :=
  (List.range db.nextHandle).any fun handle =>
    handle ≠ self && ((db.schemas handle).map KvSchema.uri == some uri)

def kvSchemaAlloc (db : KvDb) (name : CString) (isForceDrop : Bool) : Handle × KvDb :=
  let handle := db.nextHandle
  let uri := schemaUri name
  let conn := if isForceDrop then db.conn.drop uri schemaFormat (cursorOpen db handle uri) else db.conn
  let allocated := { db with
    conn := conn.create uri
    schemas := Function.update db.schemas handle (some ⟨uri, name⟩)
    nextHandle := handle + 1 }
  -- the result of the registration is not looked at
  (handle, (kvDbRegisterSchema allocated handle name).2)

def kvSchemaDestroy (db : KvDb) (handle : Handle) : Exec Fault KvDb :=
  match db.schemas handle with
  | none => .fail .useAfterFree
  | some schema =>
      let unregistered := kvDbUnregisterSchema db schema.name
      .ok { unregistered with
        conn := unregistered.conn.drop schema.uri removeFiles (cursorOpen db handle schema.uri)
        schemas := Function.update db.schemas handle none }

def kvDbFetchSchema (db : KvDb) (name : CString) : Option Handle := dictGet db.schemaCtx name

def schemaNamed (db : KvDb) (name : CString) : Exec Fault (Option KvSchema) :=
  match kvDbFetchSchema db name with
  | none => .ok none
  | some handle => match db.schemas handle with
      | some schema => .ok (some schema)
      | none => .fail .useAfterFree

def kvDbSet (db : KvDb) (name : CString) (key val : Bytes) : Exec Fault (Int × KvDb) := do
  match ← schemaNamed db name with
  | some schema =>
      let (ret, conn) := db.conn.insert schema.uri key val
      pure (ret, { db with conn := conn })
  | none => pure (-1, db)

def kvDbSearch (db : KvDb) (name : CString) (key : Bytes) : Exec Fault Int := do
  match ← schemaNamed db name with
  | some schema => pure (db.conn.search schema.uri key).1
  | none => pure (-1)

def kvDbGet (db : KvDb) (name : CString) (key : Bytes) : Exec Fault (Option Bytes) := do
  match ← schemaNamed db name with
  | some schema =>
      let (ret, val) := db.conn.search schema.uri key
      pure (if ret ≠ 0 then none else val)
  | none => pure none

-- unlike its siblings this one does not test the schema
def kvDbDel (removeMissing : Int) (db : KvDb) (name : CString) (key : Bytes) :
    Exec Fault (Int × KvDb) := do
  match ← schemaNamed db name with
  | some schema =>
      let (ret, conn) := db.conn.remove removeMissing schema.uri key
      pure (ret, { db with conn := conn })
  | none => .fail .nullPointer

/-! ## `kv_schmea_search` -/

/-- A record under the cursor, with what `get_key` returns there. -/
structure CursorItem where
  getKey : Int
  key : Bytes
  val : Bytes
deriving DecidableEq, Repr

-- Of the result only the test against 0 is used; reading past either object is a fault.
def memcmpDiffers (a b : Bytes) (n : Nat) : Exec Fault Bool := do
  Exec.check (n ≤ a.length ∧ n ≤ b.length) .outOfBounds
  return decide (a.take n ≠ b.take n)

-- The key's memory has room for the terminator that is written behind it.
def keyDiffers (key : Bytes) (dstKey : Option Bytes) (dstKeySz : Nat) : Exec Fault Bool :=
  match dstKey with
  | none => return false
  | some dstKey => if 0 < dstKeySz then memcmpDiffers (key ++ [0]) dstKey dstKeySz else return false

/-- The callback's context and its calls so far, with their results. -/
structure SearchState (σ : Type) where
  ctx : σ
  calls : List ((Bytes × Bytes) × Int)
deriving DecidableEq, Repr

structure SearchOutcome (σ : Type) where
  ret : Int
  closed : Bool
  state : SearchState σ
deriving DecidableEq, Repr

section
variable {σ : Type} (cb : σ → Bytes → Bytes → Int × σ)

def SearchState.call (s : SearchState σ) (key val : Bytes) : Int × SearchState σ :=
  let (result, ctx) := cb s.ctx key val
  (result, { ctx, calls := s.calls ++ [((key, val), result)] })

-- The callback is called on both branches, and a key that differs ends the loop.
def kvSchmeaSearch (dstKey : Option Bytes) (dstKeySz : Nat) :
    List CursorItem → SearchState σ → Exec Fault (SearchOutcome σ)
  | [], s => return { ret := -1, closed := true, state := s }
  | item :: rest, s =>
      if item.getKey ≠ 0 then return { ret := -1, closed := false, state := s }
      else do
        let differs ← keyDiffers item.key dstKey dstKeySz
        let (result, s) := s.call cb item.key item.val
        if differs then return { ret := result, closed := true, state := s }
        else kvSchmeaSearch dstKey dstKeySz rest s

end

end SampleFs.Metaserver

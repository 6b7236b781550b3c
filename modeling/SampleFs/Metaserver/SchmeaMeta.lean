import Mathlib.Data.List.TakeWhile
import SampleFs.Lib.Bytes
import SampleFs.Metaserver.KvDb

/-!
# `metaserver/schmea_meta.c`

The cache keeps the caller's record by pointer, and `schmea_cache_del` frees it. Each `schmea_cache_add` hands
over a block of its own that nobody writes later, so a record is given by the bytes it has when it is added.
-/

namespace SampleFs.Metaserver
open Lib

def schmeaCacheAdd (cache : Dict Bytes) (db : KvDb) (schemaName key : CString) (val : Bytes) :
    Exec Fault (Int × Dict Bytes × KvDb) := do
  let (ret, db') ← kvDbSet db schemaName key.bytes val
  if ret ≠ 0 then pure (-1, cache, db')
  else
    let (ptr, cache') := dictPut cache key val
    pure (if ptr.isNone then -1 else 0, cache', db')

def schmeaCacheDel (removeMissing : Int) (cache : Dict Bytes) (db : KvDb) (schemaName key : CString) :
    Exec Fault (Int × Dict Bytes × KvDb) := do
  let (ret, db') ← kvDbDel removeMissing db schemaName key.bytes
  if ret ≠ 0 then pure (ret, cache, db')
  else pure (0, (dictDel cache key).2.2, db')

/-! ## Reloading the cache -/

def schemaMaxSize : Nat := 65535

-- "sys_schema_meta"
def sysSchemaMetaTableName : CString :=
  ⟨[115, 121, 115, 95], by decide⟩ ++ ⟨[115, 99, 104, 101, 109, 97, 95, 109, 101, 116, 97], by decide⟩

/-- `bitmap` is the address of the bitmap, `none` for `NULL`. -/
structure SchemaMetaRec where
  kvCount : Nat
  bytes : Nat
  isActive : Bool
  bitmap : Option Nat
deriving DecidableEq, Repr

-- `memset` over the whole record comes first.
def schmeaMetaRecAssign (_rec : SchemaMetaRec) (keyCount : Nat) (isActive : Bool) (bytes : Nat) : SchemaMetaRec :=
  let cleared : SchemaMetaRec := ⟨0, 0, false, none⟩
  { cleared with isActive, kvCount := keyCount, bytes }

def schmeaMetaRecFetch (metaSchemaName key : CString) (db : KvDb) : Exec Fault (Option Bytes) :=
  kvDbGet db metaSchemaName key.bytes

def storedRec (val : Bytes) : Exec Fault SchemaMetaRec := do
  let kvCount ← load val 0 4
  let isActive ← load val 16 1
  let bytes ← load val 8 8
  return { kvCount, bytes, isActive := isActive ≠ 0, bitmap := none }

-- The search has written a NUL behind the key.
def keyString (key : Bytes) : CString :=
  ⟨key.takeWhile (· ≠ 0), fun member => by simpa using List.mem_takeWhile_imp member⟩

/-- The database, its `schmea_meta_cache`, and the bitmaps allocated so far. -/
structure CacheLoad where
  db : KvDb
  cache : Dict SchemaMetaRec
  bitmaps : Nat

section
-- what the calls of `bitmap_alloc(UINT32_MAX >> 4)` return, one after the other
variable (bitmapAlloc : Nat → Option Nat)

def schemaCacheLoadCb (s : CacheLoad) (key : Bytes) : Exec Fault (Int × CacheLoad) := do
  let name := keyString key
  let (_, db) := kvSchemaAlloc s.db name false
  match ← schmeaMetaRecFetch sysSchemaMetaTableName name db with
  | none => .fail .nullPointer
  | some val =>
      let prevMeta ← storedRec val
      let newMeta : SchemaMetaRec := ⟨0, 0, false, bitmapAlloc s.bitmaps⟩
      let newMeta := schmeaMetaRecAssign newMeta prevMeta.kvCount prevMeta.isActive prevMeta.bytes
      return (0, { db, cache := (dictPut s.cache name newMeta).2, bitmaps := s.bitmaps + 1 })

/-- The callback of a search that a fault has stopped does nothing more. -/
def loadCb (s : Exec Fault CacheLoad) (key _val : Bytes) : Int × Exec Fault CacheLoad :=
  match s >>= fun s => schemaCacheLoadCb bitmapAlloc s key with
  | .ok (result, s) => (result, .ok s)
  | .fail fault => (0, .fail fault)
  | .timeout => (0, .timeout)

/-- `scan` lists the records of a table in the order in which a cursor comes to them. -/
def schemaCacheLoad (scan : Table → List (Bytes × Bytes)) (metaName : CString) (db : KvDb) :
    Exec Fault (Int × CacheLoad) := do
  match ← schemaNamed db metaName with
  | none => .fail .nullPointer
  | some schema =>
      match db.conn.tables schema.uri with
      | none => .fail .nullPointer
      | some table =>
          let start : CacheLoad := ⟨db, dictCreate schemaMaxSize dictDefaultHashFn, 0⟩
          let items := (scan table).map fun record => { getKey := 0, key := record.1, val := record.2 }
          let out ← kvSchmeaSearch (loadCb bitmapAlloc) none 0 items { ctx := .ok start, calls := [] }
          return (0, ← out.state.ctx)

end

end SampleFs.Metaserver

import SampleFs.Proof.KvDb.Registry
import SampleFs.Proof.Dict.Map

namespace SampleFs.Proof.KvDb
open Lib Metaserver Dict

inductive KvCall where
  | alloc (name : CString)
  | set (name : CString) (key val : Bytes)
  | get (name : CString) (key : Bytes)
  | search (name : CString) (key : Bytes)
  | del (name : CString) (key : Bytes)

inductive KvReply where
  | alloc (handle : Handle)
  | set (ret : Int)
  | get (val : Option Bytes)
  | search (ret : Int)
  | del (ret : Int)
deriving DecidableEq

def KvCall.name : KvCall → CString
  | .alloc name => name
  | .set name _ _ => name
  | .get name _ => name
  | .search name _ => name
  | .del name _ => name

def KvCall.isAlloc : KvCall → Bool
  | .alloc _ => true
  | _ => false

def kvCall (removeMissing : Int) (db : KvDb) : KvCall → Exec Fault (KvReply × KvDb)
  | .alloc name => .ok (.alloc (kvSchemaAlloc db name false).1, (kvSchemaAlloc db name false).2)
  | .set name key val => do
      let (ret, db') ← kvDbSet db name key val
      pure (.set ret, db')
  | .get name key => do pure (.get (← kvDbGet db name key), db)
  | .search name key => do pure (.search (← kvDbSearch db name key), db)
  | .del name key => do
      let (ret, db') ← kvDbDel removeMissing db name key
      pure (.del ret, db')

/-! ## A store of separate tables -/

structure Store where
  allocated : CString → Bool
  content : CString → Table

def Store.initial (conn : WiredTiger) : Store where
  allocated := fun _ => false
  content := fun name => (conn.tables (schemaUri name)).getD fun _ => none

def Store.write (store : Store) (name : CString) (table : Table) : Store where
  allocated := store.allocated
  content := Function.update store.content name table

def Store.next (store : Store) : KvCall → Store
  | .alloc name => ⟨Function.update store.allocated name true, store.content⟩
  | .set name key val =>
      if store.allocated name then
        store.write name (Function.update (store.content name) key (some val))
      else store
  | .del name key =>
      if store.allocated name then store.write name (Function.update (store.content name) key none)
      else store
  | .get _ _ => store
  | .search _ _ => store

def Store.reply (removeMissing : Int) (store : Store) (handle : Handle) : KvCall → KvReply
  | .alloc _ => .alloc handle
  | .set name _ _ => .set (if store.allocated name then 0 else -1)
  | .get name key => .get (if store.allocated name then store.content name key else none)
  | .search name key => .search (if store.allocated name then
      (if (store.content name key).isSome then 0 else wtNotFound) else -1)
  | .del name key => .del (if store.allocated name then
      (if (store.content name key).isSome then 0 else removeMissing) else -1)

def storeAfter (conn : WiredTiger) (history : List (KvCall × KvReply)) : Store :=
  history.foldl (fun store event => store.next event.1) (Store.initial conn)

structure Represents (initial : WiredTiger) (db : KvDb) (store : Store) : Prop where
  registry : RegistryValid db
  allocated : ∀ name, store.allocated name = (lookup db.schemaCtx name).isSome
  uris : ∀ handle schema, db.schemas handle = some schema → schema.uri = schemaUri schema.name
  apart : ∀ a b, store.allocated a → store.allocated b → schemaUri a = schemaUri b → a = b
  tables : ∀ name, store.allocated name → db.conn.tables (schemaUri name) = some (store.content name)
  rest : ∀ uri, (∀ name, store.allocated name → schemaUri name ≠ uri) →
    db.conn.tables uri = initial.tables uri
  waiting : ∀ name, store.allocated name = false →
    store.content name = (initial.tables (schemaUri name)).getD fun _ => none

/-- The call returns what the store of separate tables returns, leaves every other schema's table
alone, and touches nothing at all when its schema was never allocated. -/
def MeetsStore (initial : WiredTiger) (removeMissing : Int) (store : Store) (db : KvDb)
    (call : KvCall) : Prop :=
  ∃ db', kvCall removeMissing db call = .ok (store.reply removeMissing db.nextHandle call, db') ∧
    Represents initial db' (store.next call) ∧
    (∀ other, store.allocated other → other ≠ call.name →
      db'.conn.tables (schemaUri other) = db.conn.tables (schemaUri other)) ∧
    (call.isAlloc = false → store.allocated call.name = false → db' = db)

def kvStep (removeMissing : Int) : System KvDb KvCall KvReply :=
  fun db call reply db' => kvCall removeMissing db call = .ok (reply, db')

def KvCondition (db : KvDb) : KvCall → Prop
  | .alloc name =>
      ((lookup db.schemaCtx name).isSome ∨ Unshadowed db.schemaCtx name) ∧
      (∀ other, (lookup db.schemaCtx other).isSome → schemaUri other = schemaUri name → other = name) ∧
      entries db.schemaCtx + 1 < 2 ^ 32
  | .del name _ => Unshadowed db.schemaCtx name ∧ (lookup db.schemaCtx name).isSome
  | .set name _ _ => Unshadowed db.schemaCtx name
  | .get name _ => Unshadowed db.schemaCtx name
  | .search name _ => Unshadowed db.schemaCtx name

theorem kvDbAlloc_represents (hashFn : CString → UInt32) (conn : WiredTiger) :
    Represents conn (kvDbAlloc hashFn conn) (Store.initial conn) where
  registry := kvDbAlloc_registryValid hashFn conn
  allocated := by simp [Store.initial, lookup, kvDbAlloc, dictCreate, dictInit]
  uris := by simp [kvDbAlloc]
  apart := by simp [Store.initial]
  tables := by simp [Store.initial]
  rest := fun _ _ => rfl
  waiting := fun _ _ => rfl

variable {initial : WiredTiger} {db : KvDb} {store : Store}

theorem schemaNamed_eq (represents : Represents initial db store) {name : CString}
    (unshadowed : Unshadowed db.schemaCtx name) :
    schemaNamed db name =
      .ok (if store.allocated name then some ⟨schemaUri name, name⟩ else none) := by
  unfold schemaNamed kvDbFetchSchema
  rw [dictGet_eq_lookup represents.registry.table unshadowed, represents.allocated]
  cases registered : lookup db.schemaCtx name with
  | none => rfl
  | some handle =>
      obtain ⟨schema, points, named⟩ := represents.registry.live _ ⟨_, mem_of_lookup registered⟩
      have uri := represents.uris handle schema points
      obtain ⟨uri', name'⟩ := schema
      simp only at named uri
      subst named uri
      simp only [points]
      rfl

theorem search_eq (represents : Represents initial db store) {name : CString} (allocated : store.allocated name)
    (key : Bytes) :
    db.conn.search (schemaUri name) key =
      (if (store.content name key).isSome then 0 else wtNotFound, store.content name key) := by
  unfold WiredTiger.search
  rw [represents.tables name allocated]
  cases content : store.content name key <;> simp [content]

theorem kvDbGet_eq (represents : Represents initial db store) {name : CString}
    (unshadowed : Unshadowed db.schemaCtx name) (key : Bytes) :
    kvDbGet db name key = .ok (if store.allocated name then store.content name key else none) := by
  unfold kvDbGet
  rw [schemaNamed_eq represents unshadowed]
  cases allocated : store.allocated name with
  | false => rfl
  | true =>
      simp only [Exec.ok_bind, if_true, search_eq represents allocated]
      cases content : store.content name key <;> simp [wtNotFound]

theorem kvDbSearch_eq (represents : Represents initial db store) {name : CString}
    (unshadowed : Unshadowed db.schemaCtx name) (key : Bytes) :
    kvDbSearch db name key = .ok (if store.allocated name then
      (if (store.content name key).isSome then 0 else wtNotFound) else -1) := by
  unfold kvDbSearch
  rw [schemaNamed_eq represents unshadowed]
  cases allocated : store.allocated name with
  | false => rfl
  | true => simp [search_eq represents allocated]

/-! ## Writing one table -/

theorem Represents.write (represents : Represents initial db store) {name : CString} (allocated : store.allocated name)
    (table : Table) :
    Represents initial
      { db with conn := { db.conn with tables := Function.update db.conn.tables (schemaUri name) (some table) } }
      (store.write name table) where
  registry := ⟨represents.registry.table, represents.registry.room, represents.registry.live,
    represents.registry.fresh⟩
  allocated := represents.allocated
  uris := represents.uris
  apart := represents.apart
  tables := by
    intro other present
    by_cases same : other = name
    · subst same
      simp [Store.write]
    · have uri : schemaUri other ≠ schemaUri name :=
        fun equal => same (represents.apart other name present allocated equal)
      simpa [Store.write, same, uri] using represents.tables other present
  rest := by
    intro uri free
    simp only [Function.update_of_ne (free name allocated).symm]
    exact represents.rest uri free
  waiting := by
    intro other absent
    have different : other ≠ name := by
      rintro rfl
      exact Bool.false_ne_true (absent.symm.trans allocated)
    simpa only [Store.write, Function.update_of_ne different] using represents.waiting other absent

def withTable (db : KvDb) (name : CString) (table : Table) : KvDb :=
  { db with conn := { db.conn with tables := Function.update db.conn.tables (schemaUri name) (some table) } }

theorem withTable_same {db : KvDb} {name : CString} {table : Table}
    (present : db.conn.tables (schemaUri name) = some table) :
    withTable db name table = db := by
  unfold withTable
  rw [← present, Function.update_eq_self]

theorem kvDbSet_eq (represents : Represents initial db store) {name : CString}
    (unshadowed : Unshadowed db.schemaCtx name) (key val : Bytes) :
    kvDbSet db name key val = .ok (if store.allocated name then
      (0, withTable db name (Function.update (store.content name) key (some val))) else (-1, db)) := by
  unfold kvDbSet
  rw [schemaNamed_eq represents unshadowed]
  cases allocated : store.allocated name with
  | false => rfl
  | true => simp [WiredTiger.insert, represents.tables name allocated, withTable]

theorem kvDbDel_eq (represents : Represents initial db store) (removeMissing : Int) {name : CString}
    (unshadowed : Unshadowed db.schemaCtx name) (allocated : store.allocated name) (key : Bytes) :
    kvDbDel removeMissing db name key =
      .ok (if (store.content name key).isSome then 0 else removeMissing,
        withTable db name (Function.update (store.content name) key none)) := by
  unfold kvDbDel
  rw [schemaNamed_eq represents unshadowed]
  have present := represents.tables name allocated
  cases content : store.content name key with
  | some val => simp [WiredTiger.remove, present, content, allocated, withTable]
  | none =>
      have same : Function.update (store.content name) key none = store.content name := by
        rw [← content, Function.update_eq_self]
      rw [same, withTable_same present]
      simp [WiredTiger.remove, present, content, allocated]

theorem Represents.next_set (represents : Represents initial db store) {name : CString} (allocated : store.allocated name)
    (key val : Bytes) :
    Represents initial (withTable db name (Function.update (store.content name) key (some val)))
      (store.next (.set name key val)) := by
  simp only [Store.next, allocated, if_true]
  exact represents.write allocated _

theorem Represents.next_del (represents : Represents initial db store) {name : CString} (allocated : store.allocated name)
    (key : Bytes) :
    Represents initial (withTable db name (Function.update (store.content name) key none))
      (store.next (.del name key)) := by
  simp only [Store.next, allocated, if_true]
  exact represents.write allocated _

/-! ## Allocating a schema -/

theorem kvSchemaAlloc_conn (db : KvDb) (name : CString) :
    (kvSchemaAlloc db name false).2.conn = db.conn.create (schemaUri name) := by
  unfold kvSchemaAlloc kvDbRegisterSchema
  dsimp only
  split <;> rfl

theorem lookup_kvSchemaAlloc {db : KvDb} (valid : Valid db.schemaCtx) (name : CString)
    (condition : (lookup db.schemaCtx name).isSome ∨ Unshadowed db.schemaCtx name) (other : CString) :
    (lookup (kvSchemaAlloc db name false).2.schemaCtx other).isSome =
      Function.update (fun n => (lookup db.schemaCtx n).isSome) name true other := by
  rw [kvSchemaAlloc_schemaCtx]
  by_cases present : (lookup db.schemaCtx name).isSome
  · rw [dictPut_present valid _ present]
    by_cases same : other = name
    · rw [same, Function.update_self, present]
    · rw [Function.update_of_ne same]
  · have absent : dictFind db.schemaCtx name = none := by
      apply (dictFind_absent valid (condition.resolve_left present)).mpr
      exact lookup_eq_none.mp (by simpa using present)
    rw [dictPut_lookup absent]
    by_cases same : other = name
    · rw [same, Function.update_self, Function.update_self, Option.isSome_some]
    · rw [Function.update_of_ne same, Function.update_of_ne same]

theorem create_other (conn : WiredTiger) {uri other : CString} (different : other ≠ uri) :
    (conn.create uri).tables other = conn.tables other := by
  unfold WiredTiger.create
  split <;> simp [different]

theorem Represents.created (represents : Represents initial db store) {name : CString}
    (separate : ∀ other, store.allocated other → schemaUri other = schemaUri name → other = name) :
    (db.conn.create (schemaUri name)).tables (schemaUri name) = some (store.content name) := by
  unfold WiredTiger.create
  cases allocated : store.allocated name with
  | true =>
      rw [represents.tables name allocated]
      exact represents.tables name allocated
  | false =>
      have untouched := represents.rest (schemaUri name) (by
        intro other present uri
        rw [separate other present uri, allocated] at present
        cases present)
      rw [represents.waiting name allocated, untouched]
      cases table : initial.tables (schemaUri name) with
      | none => simp
      | some table => simp [untouched, table]

theorem kvSchemaAlloc_represents (represents : Represents initial db store) {name : CString}
    (condition : KvCondition db (.alloc name)) :
    Represents initial (kvSchemaAlloc db name false).2 (store.next (.alloc name)) := by
  obtain ⟨findable, alone, room⟩ := condition
  obtain ⟨heap, _⟩ := kvSchemaAlloc_heap db name false
  have known (other : CString) : store.allocated other = (lookup db.schemaCtx other).isSome :=
    represents.allocated other
  have split (other : CString) (allocated : (store.next (.alloc name)).allocated other) :
      other = name ∨ store.allocated other := by
    by_cases same : other = name
    · exact .inl same
    · exact .inr (by simpa [Store.next, same] using allocated)
  have separate (other : CString) (allocated : store.allocated other)
      (uri : schemaUri other = schemaUri name) : other = name :=
    alone other (by rw [← known, allocated]) uri
  constructor
  · exact kvSchemaAlloc_registryValid represents.registry name false room
  · intro other
    rw [lookup_kvSchemaAlloc represents.registry.table name findable]
    simp only [Store.next, Function.update_apply, known]
  · intro handle schema points
    rw [heap] at points
    by_cases new : handle = db.nextHandle
    · rw [new, Function.update_self] at points
      cases points
      rfl
    · rw [Function.update_of_ne new] at points
      exact represents.uris handle schema points
  · intro a b allocatedA allocatedB uri
    rcases split a allocatedA with rfl | oldA
    · rcases split b allocatedB with rfl | oldB
      · rfl
      · exact (separate b oldB uri.symm).symm
    · rcases split b allocatedB with rfl | oldB
      · exact separate a oldA uri
      · exact represents.apart a b oldA oldB uri
  · intro other allocated
    rw [kvSchemaAlloc_conn]
    by_cases same : other = name
    · rw [same]
      exact represents.created separate
    · have old := (split other allocated).resolve_left same
      rw [create_other _ fun uri => same (separate other old uri)]
      exact represents.tables other old
  · intro uri free
    have fresh : schemaUri name ≠ uri := free name (by simp [Store.next])
    rw [kvSchemaAlloc_conn, create_other _ fresh.symm]
    apply represents.rest
    intro other old
    apply free other
    simp only [Store.next, Function.update_apply]
    split <;> simp [old]
  · intro other absent
    have different : other ≠ name := by
      rintro rfl
      simp [Store.next] at absent
    exact represents.waiting other (by simpa [Store.next, different] using absent)

theorem Store.next_other (store : Store) (call : KvCall) {other : CString} (different : other ≠ call.name) :
    (store.next call).content other = store.content other ∧
      (store.next call).allocated other = store.allocated other := by
  cases call with
  | alloc name => exact ⟨rfl, Function.update_of_ne different _ _⟩
  | set name key val =>
      simp only [Store.next]
      split
      · exact ⟨Function.update_of_ne different _ _, rfl⟩
      · exact ⟨rfl, rfl⟩
  | get name key => exact ⟨rfl, rfl⟩
  | search name key => exact ⟨rfl, rfl⟩
  | del name key =>
      simp only [Store.next]
      split
      · exact ⟨Function.update_of_ne different _ _, rfl⟩
      · exact ⟨rfl, rfl⟩

theorem kvCall_represents (represents : Represents initial db store) (removeMissing : Int) (call : KvCall)
    (condition : KvCondition db call) :
    ∃ db', kvCall removeMissing db call = .ok (store.reply removeMissing db.nextHandle call, db') ∧
      Represents initial db' (store.next call) ∧
      (call.isAlloc = false → store.allocated call.name = false → db' = db) := by
  cases call with
  | alloc name =>
      exact ⟨_, rfl, kvSchemaAlloc_represents represents condition, by simp [KvCall.isAlloc]⟩
  | set name key val =>
      have returned := kvDbSet_eq represents condition key val
      cases allocated : store.allocated name with
      | false =>
          refine ⟨db, ?_, by simpa [Store.next, allocated] using represents, fun _ _ => rfl⟩
          simp [kvCall, returned, Store.reply, allocated]
      | true =>
          refine ⟨_, ?_, represents.next_set allocated key val, ?_⟩
          · simp [kvCall, returned, Store.reply, allocated]
          · simp [KvCall.name, allocated]
  | get name key =>
      exact ⟨db, by simp [kvCall, kvDbGet_eq represents condition, Store.reply], represents,
        fun _ _ => rfl⟩
  | search name key =>
      exact ⟨db, by simp [kvCall, kvDbSearch_eq represents condition, Store.reply], represents,
        fun _ _ => rfl⟩
  | del name key =>
      have allocated : store.allocated name := by
        rw [represents.allocated]
        exact condition.2
      have returned := kvDbDel_eq represents removeMissing condition.1 allocated key
      refine ⟨_, ?_, represents.next_del allocated key, ?_⟩
      · simp [kvCall, returned, Store.reply, allocated]
      · simp [KvCall.name, allocated]

theorem kvCall_meets (represents : Represents initial db store) (removeMissing : Int) (call : KvCall)
    (condition : KvCondition db call) : MeetsStore initial removeMissing store db call := by
  obtain ⟨db', returned, kept, untouched⟩ := kvCall_represents represents removeMissing call condition
  refine ⟨db', returned, kept, ?_, untouched⟩
  intro other allocated different
  obtain ⟨content, still⟩ := store.next_other call different
  rw [represents.tables other allocated, kept.tables other (by rw [still, allocated]), content]

theorem schema_isolation (removeMissing : Int) (hashFn : CString → UInt32) (conn : WiredTiger)
    {history : List (KvCall × KvReply)} {db : KvDb}
    (run : Run (guarded KvCondition (kvStep removeMissing)) (kvDbAlloc hashFn conn) history db)
    (call : KvCall) (condition : KvCondition db call) :
    MeetsStore conn removeMissing (storeAfter conn history) db call := by
  have represents : Represents conn db (storeAfter conn history) := by
    refine run.follows (fun store event => store.next event.1) (Represents conn) ?_
      (kvDbAlloc_represents hashFn conn)
    intro db store call reply db' represents step
    obtain ⟨db'', returned, kept, _⟩ := kvCall_represents represents removeMissing call step.1
    rw [step.2] at returned
    cases returned
    exact kept
  exact kvCall_meets represents removeMissing call condition

abbrev doc : CString := ⟨[100, 111, 99], by decide⟩
abbrev docsSet : KvDb :=
  { (kvSchemaAlloc freshDb docs false).2 with
    conn := ((kvSchemaAlloc freshDb docs false).2.conn.insert (schemaUri docs) [1] [2]).2 }

/-- `kv_db_del` follows a null schema, and a read of the schema `doc`, which was never allocated,
is served from the table of `docs`. -/
theorem schema_names_meet :
    ¬ MeetsStore emptyConn 0 (storeAfter emptyConn []) freshDb (.del docs [1]) ∧
      Run (kvStep 0) freshDb [(.alloc docs, .alloc 0), (.set docs [1] [2], .set 0)] docsSet ∧
      ¬ MeetsStore emptyConn 0
        (storeAfter emptyConn [(.alloc docs, .alloc 0), (.set docs [1] [2], .set 0)]) docsSet (.get doc [1]) := by
  refine ⟨?_, .cons rfl (.single rfl), ?_⟩
  · rintro ⟨db', returned, _⟩
    have crash : kvCall 0 freshDb (.del docs [1]) = .fail .nullPointer := rfl
    rw [crash] at returned
    cases returned
  · rintro ⟨db', returned, _⟩
    have served : kvCall 0 docsSet (.get doc [1]) = .ok (.get (some [2]), docsSet) := rfl
    rw [served] at returned
    have reply := (Prod.mk.inj (Exec.ok.inj returned)).1
    revert reply
    decide +kernel

theorem schema_isolation_docs :
    Run (guarded KvCondition (kvStep 0)) freshDb [(.alloc docs, .alloc 0), (.set docs [1] [2], .set 0)] docsSet ∧
      MeetsStore emptyConn 0
        (storeAfter emptyConn [(.alloc docs, .alloc 0), (.set docs [1] [2], .set 0)]) docsSet (.get docs [1]) := by
  have first : KvCondition freshDb (.alloc docs) := by
    refine ⟨.inr (unshadowed_of_forall (by decide +kernel)), ?_, by decide +kernel⟩
    intro other registered
    cases registered
  have second : KvCondition (kvSchemaAlloc freshDb docs false).2 (.set docs [1] [2]) :=
    show Unshadowed _ docs from unshadowed_of_forall (by decide +kernel)
  have third : KvCondition docsSet (.get docs [1]) :=
    show Unshadowed _ docs from unshadowed_of_forall (by decide +kernel)
  have run : Run (guarded KvCondition (kvStep 0)) freshDb
      [(.alloc docs, .alloc 0), (.set docs [1] [2], .set 0)] docsSet :=
    .cons ⟨first, rfl⟩ (.single ⟨second, rfl⟩)
  exact ⟨run, schema_isolation 0 (fun _ => 0) emptyConn run (.get docs [1]) third⟩

end SampleFs.Proof.KvDb

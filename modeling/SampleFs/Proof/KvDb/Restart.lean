import SampleFs.Proof.KvDb.CacheLoad

/-!
# The cache after a restart

A new process registers `sys_schema_meta` and reloads the cache from its table. The cursor comes to the
names in byte order, so no name has been loaded when a longer one that begins with it could stand in its
way: every record is cached, although `dict` compares keys only up to the length of the key it looks for.
-/

namespace SampleFs.Proof.KvDb
open Lib Metaserver Dict

def schemaMetaRecBytes : Nat := 32

/-- The record that is stored in some bytes. The pointer to the bitmap is not read back. -/
def decodedRec (val : Metaserver.Bytes) : SchemaMetaRec where
  kvCount := littleEndian ((val.drop 0).take 4)
  bytes := littleEndian ((val.drop 8).take 8)
  isActive := littleEndian ((val.drop 16).take 1) ≠ 0
  bitmap := none

theorem storedRec_eq {val : Metaserver.Bytes} (size : val.length = schemaMetaRecBytes) :
    storedRec val = .ok (decodedRec val) := by
  unfold schemaMetaRecBytes at size
  rw [storedRec, load_inside (by omega), load_inside (by omega), load_inside (by omega)]
  rfl

def restarted (hashFn : CString → UInt32) (conn : WiredTiger) : KvDb :=
  (kvSchemaAlloc (kvDbAlloc hashFn conn) sysSchemaMetaTableName false).2

/-- The name does not get in the way of `sys_schema_meta` in the registry, nor the other way round. -/
def ClearOfMeta (registry : Dict Handle) (name : CString) : Prop :=
  name ≠ sysSchemaMetaTableName → dictIndex registry name = dictIndex registry sysSchemaMetaTableName →
    ¬ name.bytes <+: sysSchemaMetaTableName.bytes ∧ ¬ sysSchemaMetaTableName.bytes <+: name.bytes

theorem keyString_bytes (name : CString) : keyString name.bytes = name := by
  apply CString.ext
  apply List.takeWhile_eq_self_iff.mpr
  intro byte member
  simpa using fun zero : byte = 0 => name.noNul (zero ▸ member)

/-- The schemas of the records `done` are registered, and no data has been touched. -/
structure Registers (start : KvDb) (done : List Record) (db : KvDb) : Prop where
  valid : RegistryValid db
  size : entries db.schemaCtx ≤ done.length + 1
  keys : ∀ i, ∀ pair ∈ db.schemaCtx.members i,
    pair.key = sysSchemaMetaTableName ∨ ∃ val, (pair.key.bytes, val) ∈ done
  metaTable : (lookup db.schemaCtx sysSchemaMetaTableName).isSome
  registered : ∀ (name : CString) val, (name.bytes, val) ∈ done → (lookup db.schemaCtx name).isSome
  index : dictIndex db.schemaCtx = dictIndex start.schemaCtx
  uris : ∀ handle schema, db.schemas handle = some schema → schema.uri = schemaUri schema.name
  tables : ∀ uri table, start.conn.tables uri = some table → db.conn.tables uri = some table

/-- The records `done`, and no others, are cached under their names. -/
structure Caches (done : List Record) (cache : Dict SchemaMetaRec) : Prop where
  valid : Valid cache
  size : entries cache ≤ done.length
  keys : ∀ i, ∀ pair ∈ cache.members i, ∃ val, (pair.key.bytes, val) ∈ done
  cached : ∀ (name : CString) val, (name.bytes, val) ∈ done → lookup cache name = some (decodedRec val)

structure Loaded (start : KvDb) (done : List Record) (s : CacheLoad) : Prop where
  registers : Registers start done s.db
  caches : Caches done s.cache

theorem dictPut_index {V : Type} (d : Dict V) (key : CString) (val : V) :
    dictIndex (dictPut d key val).2 = dictIndex d := by
  unfold dictPut
  cases dictFind d key <;> rfl

theorem schemaNamed_registered {db : KvDb} (valid : RegistryValid db)
    (uris : ∀ handle schema, db.schemas handle = some schema → schema.uri = schemaUri schema.name) {name : CString}
    (registered : (lookup db.schemaCtx name).isSome) (unshadowed : Unshadowed db.schemaCtx name) :
    schemaNamed db name = .ok (some ⟨schemaUri name, name⟩) := by
  obtain ⟨handle, found⟩ := Option.isSome_iff_exists.mp registered
  obtain ⟨⟨uri, own⟩, points, rfl⟩ := valid.live _ ⟨_, mem_of_lookup found⟩
  have same : uri = schemaUri own := uris handle _ points
  simp [schemaNamed, kvDbFetchSchema, dictGet_eq_lookup valid.table unshadowed, found, points, same]

theorem create_keeps (conn : WiredTiger) (uri : CString) {other : CString} {table : Table}
    (there : conn.tables other = some table) : (conn.create uri).tables other = some table := by
  unfold WiredTiger.create
  cases opened : conn.tables uri with
  | some _ => exact there
  | none =>
      have different : other ≠ uri := by
        rintro rfl
        rw [opened] at there
        cases there
      exact (Function.update_of_ne different _ _).trans there

section
variable {start db : KvDb} {done : List Record} {cache : Dict SchemaMetaRec} {name : CString} {val : Metaserver.Bytes}

theorem not_begins (ordered : ∀ record ∈ done, record.1 < name.bytes) {other : CString} {val : Metaserver.Bytes}
    (member : (other.bytes, val) ∈ done) : ¬ name.bytes <+: other.bytes :=
  fun begins => begins.le (ordered _ member)

/-! ## One record -/

theorem Caches.put (caches : Caches done cache) (ordered : ∀ record ∈ done, record.1 < name.bytes)
    (few : done.length + 1 < 2 ^ 32) :
    Caches (done ++ [(name.bytes, val)]) (dictPut cache name (decodedRec val)).2 := by
  have absent : dictFind cache name = none := by
    apply (dictFind_eq_none caches.valid name).mpr
    intro pair member
    obtain ⟨val, there⟩ := caches.keys _ pair member
    exact not_begins ordered there
  have room := (entries_dictPut_le caches.valid name (decodedRec val)).trans (Nat.succ_le_succ caches.size)
  constructor
  · exact dictPut_valid caches.valid name _ (Nat.lt_of_le_of_lt room few)
  · simpa using room
  · intro i pair member
    rcases mem_dictPut member with old | rfl
    · obtain ⟨val', there⟩ := caches.keys i pair old
      exact ⟨val', List.mem_append_left _ there⟩
    · exact ⟨val, by simp⟩
  · intro other val' member
    rw [dictPut_lookup absent]
    rcases List.mem_append.mp member with old | new
    · have different : other ≠ name := by
        rintro rfl
        exact not_begins ordered old (List.prefix_refl _)
      rw [Function.update_of_ne different, caches.cached other val' old]
    · obtain ⟨same, rfl⟩ := Prod.mk.inj (List.mem_singleton.mp new)
      rw [CString.ext same, Function.update_self]

-- A name that is there already is only refused if it is `sys_schema_meta` itself.
theorem Registers.lookup_alloc (registers : Registers start done db) (ordered : ∀ record ∈ done, record.1 < name.bytes)
    (clear : ClearOfMeta start.schemaCtx name) :
    (lookup (kvSchemaAlloc db name false).2.schemaCtx name).isSome ∧ ∀ other,
      (lookup db.schemaCtx other).isSome → (lookup (kvSchemaAlloc db name false).2.schemaCtx other).isSome := by
  rw [kvSchemaAlloc_schemaCtx]
  by_cases own : name = sysSchemaMetaTableName
  · rw [dictPut_present registers.valid.table _ (own ▸ registers.metaTable)]
    exact ⟨own ▸ registers.metaTable, fun _ there => there⟩
  · have absent : dictFind db.schemaCtx name = none := by
      apply (dictFind_eq_none registers.valid.table name).mpr
      intro pair member
      rcases registers.keys _ pair member with same | ⟨val, there⟩
      · have placed := registers.valid.table.placed _ pair member
        rw [same, registers.index] at placed
        rw [same]
        exact (clear own placed.symm).1
      · exact not_begins ordered there
    refine ⟨by simp [dictPut_lookup absent], ?_⟩
    intro other there
    rw [dictPut_lookup absent]
    by_cases same : other = name
    · simp [same]
    · rwa [Function.update_of_ne same]

theorem Registers.alloc (registers : Registers start done db) (ordered : ∀ record ∈ done, record.1 < name.bytes)
    (clear : ClearOfMeta start.schemaCtx name) (few : done.length + 2 < 2 ^ 32) :
    Registers start (done ++ [(name.bytes, val)]) (kvSchemaAlloc db name false).2 := by
  obtain ⟨heap, _⟩ := kvSchemaAlloc_heap db name false
  obtain ⟨own, kept⟩ := registers.lookup_alloc ordered clear
  have room := registers.size
  constructor
  · exact kvSchemaAlloc_registryValid registers.valid name false (by omega)
  · have grown := entries_dictPut_le registers.valid.table name db.nextHandle
    rw [kvSchemaAlloc_schemaCtx]
    simpa using grown.trans (Nat.succ_le_succ room)
  · intro i pair member
    rw [kvSchemaAlloc_schemaCtx] at member
    rcases mem_dictPut member with old | rfl
    · refine (registers.keys i pair old).imp_right ?_
      exact fun ⟨val', there⟩ => ⟨val', List.mem_append_left _ there⟩
    · exact .inr ⟨val, by simp⟩
  · exact kept _ registers.metaTable
  · intro other val' member
    rcases List.mem_append.mp member with old | new
    · exact kept other (registers.registered other val' old)
    · obtain ⟨same, rfl⟩ := Prod.mk.inj (List.mem_singleton.mp new)
      rw [CString.ext same]
      exact own
  · rw [kvSchemaAlloc_schemaCtx, dictPut_index, registers.index]
  · intro handle schema points
    rw [heap] at points
    by_cases new : handle = db.nextHandle
    · rw [new, Function.update_self] at points
      cases points
      rfl
    · rw [Function.update_of_ne new] at points
      exact registers.uris handle schema points
  · intro uri table there
    rw [kvSchemaAlloc_conn]
    exact create_keeps _ _ (registers.tables uri table there)

theorem Registers.named (registers : Registers start done db)
    (clear : ∀ (other : CString) val', (other.bytes, val') ∈ done → ClearOfMeta start.schemaCtx other) :
    schemaNamed db sysSchemaMetaTableName = .ok (some ⟨schemaUri sysSchemaMetaTableName, sysSchemaMetaTableName⟩) := by
  apply schemaNamed_registered registers.valid registers.uris registers.metaTable
  apply unshadowed_of_forall
  intro pair member begins
  rcases registers.keys _ pair member with own | ⟨val', there⟩
  · exact own
  · by_contra other
    have placed := registers.valid.table.placed _ pair member
    rw [registers.index] at placed
    exact (clear pair.key val' there other placed).2 begins

theorem Registers.fetch (registers : Registers start done db)
    (clear : ∀ (other : CString) val', (other.bytes, val') ∈ done → ClearOfMeta start.schemaCtx other) {table : Table}
    (opened : start.conn.tables (schemaUri sysSchemaMetaTableName) = some table) (stored : table name.bytes = some val) :
    schmeaMetaRecFetch sysSchemaMetaTableName name db = .ok (some val) := by
  have there := registers.tables _ _ opened
  simp [schmeaMetaRecFetch, kvDbGet, registers.named clear, WiredTiger.search, there, stored]

theorem schemaCacheLoadCb_step {bitmapAlloc : Nat → Option Nat} {table : Table} {s : CacheLoad}
    (loaded : Loaded start done s) (ordered : ∀ record ∈ done, record.1 < name.bytes)
    (clear : ∀ (other : CString) val', (other.bytes, val') ∈ done ++ [(name.bytes, val)] →
      ClearOfMeta start.schemaCtx other) (few : done.length + 2 < 2 ^ 32)
    (opened : start.conn.tables (schemaUri sysSchemaMetaTableName) = some table) (stored : table name.bytes = some val)
    (size : val.length = schemaMetaRecBytes) :
    ∃ s', schemaCacheLoadCb bitmapAlloc s name.bytes = .ok (0, s') ∧ Loaded start (done ++ [(name.bytes, val)]) s' := by
  have registers : Registers start (done ++ [(name.bytes, val)]) _ :=
    loaded.registers.alloc ordered (clear name val (by simp)) few
  have caches : Caches (done ++ [(name.bytes, val)]) _ := loaded.caches.put ordered (Nat.lt_of_succ_lt few)
  refine ⟨⟨_, _, s.bitmaps + 1⟩, ?_, registers, caches⟩
  simp only [schemaCacheLoadCb, keyString_bytes, registers.fetch clear opened stored, Exec.ok_bind, storedRec_eq size]
  rfl

/-! ## The whole table -/

theorem advance_loads {bitmapAlloc : Nat → Option Nat} {table : Table} {records : List Record} {s : CacheLoad}
    {calls : List (Record × Int)} (loaded : Loaded start done s)
    (opened : start.conn.tables (schemaUri sysSchemaMetaTableName) = some table)
    (ordered : (done ++ records).Pairwise fun a b => a.1 < b.1) (few : (done ++ records).length + 1 < 2 ^ 32)
    (stored : ∀ record ∈ records, table record.1 = some record.2 ∧ 0 ∉ record.1 ∧ record.2.length = schemaMetaRecBytes)
    (clear : ∀ (other : CString) val', (other.bytes, val') ∈ done ++ records → ClearOfMeta start.schemaCtx other) :
    ∃ s', (advance (loadCb bitmapAlloc) ⟨.ok s, calls⟩ records).ctx = .ok s' ∧ Loaded start (done ++ records) s' := by
  induction records generalizing done s calls with
  | nil => exact ⟨s, rfl, by simpa using loaded⟩
  | cons record rest ih =>
      obtain ⟨key, val⟩ := record
      obtain ⟨there, noNul, size⟩ := stored (key, val) List.mem_cons_self
      have split : done ++ (key, val) :: rest = (done ++ [(key, val)]) ++ rest := by simp
      rw [split] at ordered few clear ⊢
      have before : ∀ record ∈ done, record.1 < key := by
        have pairs := (List.pairwise_append.mp (List.pairwise_append.mp ordered).1).2.2
        exact fun record member => pairs record member (key, val) (by simp)
      have one : ∃ next, schemaCacheLoadCb bitmapAlloc s key = .ok (0, next) ∧ Loaded start (done ++ [(key, val)]) next := by
        apply @schemaCacheLoadCb_step _ _ ⟨key, noNul⟩ _ _ _ _ loaded before _ _ opened there size
        · exact fun other val' member => clear other val' (List.mem_append_left _ member)
        · simp only [List.length_append, List.length_singleton] at few
          omega
      obtain ⟨next, called, loaded⟩ := one
      have cb : loadCb bitmapAlloc (.ok s) key val = (0, .ok next) := by simp [loadCb, called]
      have others : ∃ s', (advance (loadCb bitmapAlloc) ⟨.ok next, calls ++ [((key, val), 0)]⟩ rest).ctx = .ok s' ∧
          Loaded start (done ++ [(key, val)] ++ rest) s' :=
        ih loaded ordered few (fun record member => stored record (List.mem_cons_of_mem _ member)) clear
      obtain ⟨s', reached, loads⟩ := others
      refine ⟨s', ?_, loads⟩
      rw [← reached, advance, List.foldl_cons, SearchState.call, cb]
      rfl

theorem restarted_registers (hashFn : CString → UInt32) (conn : WiredTiger) :
    Registers (restarted hashFn conn) [] (restarted hashFn conn) := by
  have fresh := kvDbAlloc_registryValid hashFn conn
  have nothing (i : Nat) : (kvDbAlloc hashFn conn).schemaCtx.members i = [] := rfl
  have none : entries (kvDbAlloc hashFn conn).schemaCtx = 0 := by simp [entries, Chain.total, nothing]
  have registry : (restarted hashFn conn).schemaCtx = _ := kvSchemaAlloc_schemaCtx _ sysSchemaMetaTableName false
  have absent : dictFind (kvDbAlloc hashFn conn).schemaCtx sysSchemaMetaTableName = Option.none :=
    (dictFind_eq_none fresh.table _).mpr (by simp [nothing])
  obtain ⟨heap, _⟩ := kvSchemaAlloc_heap (kvDbAlloc hashFn conn) sysSchemaMetaTableName false
  constructor
  · exact kvSchemaAlloc_registryValid fresh _ false (by rw [none]; decide)
  · rw [registry]
    exact (entries_dictPut_le fresh.table _ _).trans (by rw [none]; rfl)
  · intro i pair member
    rw [registry] at member
    rcases mem_dictPut member with old | rfl
    · simp [nothing] at old
    · exact .inl rfl
  · rw [registry, dictPut_lookup absent, Function.update_self]
    rfl
  · intro name val member
    cases member
  · rfl
  · intro handle schema points
    rw [restarted, heap] at points
    by_cases new : handle = (kvDbAlloc hashFn conn).nextHandle
    · rw [new, Function.update_self] at points
      cases points
      rfl
    · rw [Function.update_of_ne new] at points
      cases points
  · exact fun _ _ there => there

def firstLoad (db : KvDb) : CacheLoad := ⟨db, dictCreate schemaMaxSize dictDefaultHashFn, 0⟩

theorem firstLoad_loaded (hashFn : CString → UInt32) (conn : WiredTiger) :
    Loaded (restarted hashFn conn) [] (firstLoad (restarted hashFn conn)) := by
  refine ⟨restarted_registers hashFn conn, dictCreate_valid (by decide) _, ?_, ?_, ?_⟩
  · simp [firstLoad, entries, Chain.total, dictCreate, dictInit]
  · intro i pair member
    simp [firstLoad, dictCreate, dictInit] at member
  · intro name val member
    cases member

theorem schemaCacheLoad_loads (bitmapAlloc : Nat → Option Nat) {scan : Table → List Record} {hashFn : CString → UInt32}
    {conn : WiredTiger} {table : Table}
    (opened : (restarted hashFn conn).conn.tables (schemaUri sysSchemaMetaTableName) = some table)
    (content : MetaTable scan table) (sizes : ∀ key val, table key = some val → val.length = schemaMetaRecBytes)
    (clear : ∀ name : CString, (table name.bytes).isSome → ClearOfMeta (restarted hashFn conn).schemaCtx name)
    (few : (scan table).length + 1 < 2 ^ 32) :
    ∃ s, schemaCacheLoad bitmapAlloc scan sysSchemaMetaTableName (restarted hashFn conn) = .ok (0, s) ∧
      Loaded (restarted hashFn conn) (scan table) s := by
  have loads : ∃ s, (advance (loadCb bitmapAlloc) ⟨.ok (firstLoad (restarted hashFn conn)), []⟩ (scan table)).ctx = .ok s ∧
      Loaded (restarted hashFn conn) ([] ++ scan table) s := by
    apply advance_loads (firstLoad_loaded hashFn conn) opened content.ordered few
    · intro record member
      have stored := (content.listed record.1 record.2).mp member
      exact ⟨stored, content.names _ _ stored, sizes _ _ stored⟩
    · intro other val member
      exact clear other (by rw [(content.listed other.bytes val).mp member]; rfl)
  obtain ⟨s, reached, loaded⟩ := loads
  refine ⟨s, ?_, loaded⟩
  have named := (restarted_registers hashFn conn).named (by simp)
  have searched := @search_passes _ (loadCb bitmapAlloc) none 0 (scan table) [] (fun _ _ => rfl)
    ⟨.ok (firstLoad (restarted hashFn conn)), []⟩
  rw [List.append_nil] at searched
  simp only [schemaCacheLoad, named, Exec.ok_bind, opened]
  refine Exec.bind_eq_ok.mpr ⟨_, searched, ?_⟩
  exact Exec.bind_eq_ok.mpr ⟨s, reached, rfl⟩

end

/-! ## A run and a restart -/

def CacheCall.IsRecord : CacheCall → Prop
  | .add _ val => val.length = schemaMetaRecBytes
  | .del _ => True

def Records (cache : Dict Metaserver.Bytes) : Prop :=
  ∀ i, ∀ pair ∈ cache.members i, pair.val.length = schemaMetaRecBytes

abbrev recordStep (removeMissing : Int) : System MetaState CacheCall Int :=
  guarded (fun s call => CacheCondition removeMissing s call ∧ Roomy s ∧ call.IsRecord)
    (cacheStep removeMissing sysSchemaMetaTableName)

/-- What was cached before the restart is cached after it, and the tables are as they were. -/
structure Survives (s : MetaState) (after : CacheLoad) : Prop where
  cached : ∀ name, lookup after.cache name = (lookup s.cache name).map decodedRec
  reads : ∀ name, (∀ other, (lookup s.cache other).isSome → dictIndex after.cache other = dictIndex after.cache name →
    name.bytes <+: other.bytes → other = name) → dictGet after.cache name = (lookup s.cache name).map decodedRec
  registered : ∀ name, (lookup s.cache name).isSome → (lookup after.db.schemaCtx name).isSome
  tables : ∀ uri table, s.db.conn.tables uri = some table → after.db.conn.tables uri = some table

theorem cacheCall_records {removeMissing : Int} {conn : WiredTiger} {store : Store} {s s' : MetaState} {ret : Int}
    {call : CacheCall} (valid : CacheValid sysSchemaMetaTableName s conn store) (records : Records s.cache)
    (isRecord : call.IsRecord) (taken : cacheCall removeMissing sysSchemaMetaTableName s call = .ok (ret, s')) :
    Records s'.cache := by
  cases call with
  | add key val =>
      rw [cacheAdd_eq valid] at taken
      obtain ⟨_, rfl⟩ := Prod.mk.inj (Exec.ok.inj taken)
      intro i pair member
      rcases mem_dictPut member with old | rfl
      · exact records i pair old
      · exact isRecord
  | del key =>
      rw [cacheDel_eq valid] at taken
      obtain ⟨_, rfl⟩ := Prod.mk.inj (Exec.ok.inj taken)
      intro i pair member
      simp only at member
      split at member
      · exact records i pair (mem_of_mem_dictDel valid.table member)
      · exact records i pair member

theorem Loaded.survives {s : MetaState} {conn : WiredTiger} {store : Store} {hashFn : CString → UInt32}
    {scan : Table → List Record} {after : CacheLoad} (valid : CacheValid sysSchemaMetaTableName s conn store)
    (listed : ∀ key val, (key, val) ∈ scan (store.content sysSchemaMetaTableName) ↔
      store.content sysSchemaMetaTableName key = some val)
    (loaded : Loaded (restarted hashFn s.db.conn) (scan (store.content sysSchemaMetaTableName)) after) :
    Survives s after := by
  have cached (name : CString) : lookup after.cache name = (lookup s.cache name).map decodedRec := by
    cases stored : lookup s.cache name with
    | some val =>
        rw [← valid.agrees] at stored
        exact loaded.caches.cached name val ((listed name.bytes val).mpr stored)
    | none =>
        refine lookup_eq_none.mpr ?_
        intro pair member same
        obtain ⟨val, there⟩ := loaded.caches.keys _ pair member
        rw [same, listed, valid.agrees, stored] at there
        cases there
  refine ⟨cached, ?_, ?_, ?_⟩
  · intro name alone
    rw [← cached]
    apply dictGet_eq_lookup loaded.caches.valid
    apply unshadowed_of_forall
    intro pair member begins
    obtain ⟨val, there⟩ := loaded.caches.keys _ pair member
    rw [listed, valid.agrees] at there
    exact alone pair.key (by rw [there]; rfl) (loaded.caches.valid.placed _ pair member) begins
  · intro name present
    obtain ⟨val, stored⟩ := Option.isSome_iff_exists.mp present
    rw [← valid.agrees] at stored
    exact loaded.registers.registered name val ((listed name.bytes val).mpr stored)
  · intro uri table there
    apply loaded.registers.tables
    rw [restarted, kvSchemaAlloc_conn]
    exact create_keeps _ _ there

theorem cache_survives_restart (removeMissing : Int) (bitmapAlloc : Nat → Option Nat)
    (hashFn cacheHash hashFn' : CString → UInt32) {conn : WiredTiger}
    (empty : ∀ table, conn.tables (schemaUri sysSchemaMetaTableName) = some table → ∀ raw, table raw = none)
    {history : List (CacheCall × Int)} {s : MetaState}
    (run : Run (recordStep removeMissing) (metaStart hashFn cacheHash conn sysSchemaMetaTableName) history s)
    {scan : Table → List Record} {table : Table}
    (opened : s.db.conn.tables (schemaUri sysSchemaMetaTableName) = some table)
    (listed : ∀ key val, (key, val) ∈ scan table ↔ table key = some val)
    (ordered : (scan table).Pairwise fun a b => a.1 < b.1) (few : (scan table).length + 1 < 2 ^ 32)
    (clear : ∀ name, (lookup s.cache name).isSome → ClearOfMeta (restarted hashFn' s.db.conn).schemaCtx name) :
    ∃ after, schemaCacheLoad bitmapAlloc scan sysSchemaMetaTableName (restarted hashFn' s.db.conn) = .ok (0, after) ∧
      Survives s after := by
  have reached : (∃ store, CacheValid sysSchemaMetaTableName s conn store) ∧ Records s.cache := by
    refine run.invariant (fun s => (∃ store, CacheValid sysSchemaMetaTableName s conn store) ∧ Records s.cache) ?_
      ⟨⟨_, metaStart_valid hashFn cacheHash empty⟩, ?_⟩
    · rintro s call ret s' ⟨⟨store, valid⟩, records⟩ ⟨⟨condition, roomy, isRecord⟩, taken⟩
      obtain ⟨ret', s'', store', returned, valid', _⟩ := cacheCall_valid valid roomy condition
      have kept := cacheCall_records valid records isRecord taken
      rw [taken] at returned
      cases returned
      exact ⟨⟨store', valid'⟩, kept⟩
    · intro i pair member
      simp [metaStart, dictCreate, dictInit] at member
  obtain ⟨⟨store, valid⟩, records⟩ := reached
  have same : store.content sysSchemaMetaTableName = table :=
    Option.some.inj ((valid.represents.tables _ valid.allocated).symm.trans opened)
  subst same
  have content : MetaTable scan (store.content sysSchemaMetaTableName) :=
    ⟨fun key val stored => valid.strings key (by rw [stored]; rfl), listed, ordered⟩
  have sizes (key val) (stored : store.content sysSchemaMetaTableName key = some val) :
      val.length = schemaMetaRecBytes := by
    have there := valid.agrees ⟨key, content.names key val stored⟩
    rw [stored] at there
    exact records _ _ (mem_of_lookup there.symm)
  have there : (restarted hashFn' s.db.conn).conn.tables (schemaUri sysSchemaMetaTableName) =
      some (store.content sysSchemaMetaTableName) := by
    rw [restarted, kvSchemaAlloc_conn]
    exact create_keeps _ _ opened
  obtain ⟨after, loads, loaded⟩ := schemaCacheLoad_loads bitmapAlloc there content sizes
    (fun name present => clear name (by rwa [← valid.agrees])) few
  exact ⟨after, loads, loaded.survives valid listed⟩

def docsStored : MetaState where
  cache := (dictPut freshMeta.cache docs docsRec).2
  db := withTable freshMeta.db sysSchemaMetaTableName docsTable

theorem cache_survives_restart_docs :
    Run (recordStep 0) freshMeta [(.add docs docsRec, 0)] docsStored ∧
      ∃ after, schemaCacheLoad (fun n => some (n + 100)) (fun _ => [(docs.bytes, docsRec)]) sysSchemaMetaTableName
          (restarted (fun _ => 0) docsStored.db.conn) = .ok (0, after) ∧ Survives docsStored after := by
  have empty := emptyConn_empty sysSchemaMetaTableName
  have valid := metaStart_valid (fun _ => 0) (fun _ => 0) empty
  have unshadowed : Unshadowed freshMeta.cache docs :=
    unshadowed_of_forall (by simp [metaStart, dictCreate, dictInit])
  have roomy : Roomy freshMeta := by
    simp [Roomy, entries, Chain.total, metaStart, dictCreate, dictInit]
  have taken : cacheStep 0 sysSchemaMetaTableName freshMeta (.add docs docsRec) 0 docsStored :=
    cacheAdd_eq valid docs docsRec
  have run : Run (recordStep 0) freshMeta [(.add docs docsRec, 0)] docsStored :=
    .single ⟨⟨.inr ⟨rfl, unshadowed⟩, roomy, rfl⟩, taken⟩
  have opened : docsStored.db.conn.tables (schemaUri sysSchemaMetaTableName) = some docsTable := by
    simp [docsStored, withTable]
  refine ⟨run, cache_survives_restart 0 _ _ _ _ empty run opened docsTable_content.listed docsTable_content.ordered
    (by decide) ?_⟩
  intro name present _ _
  have only : name = docs := by
    by_contra other
    obtain ⟨val, stored⟩ := Option.isSome_iff_exists.mp present
    rcases mem_dictPut (mem_of_lookup stored) with old | new
    · cases old
    · exact other (congrArg DictDataPair.key new)
  rw [only]
  exact ⟨by decide, by decide⟩

end SampleFs.Proof.KvDb

import SampleFs.Lib.Simulation
import SampleFs.Proof.KvDb.Isolation

/-!
# Schemas that come and go

The store of separate tables, with schemas that are also recreated and destroyed. As long as no name in
use begins with another one, the registry finds every schema under its name, whatever its hash function is.
-/

namespace SampleFs.Proof.KvDb
open Lib Metaserver Dict

/-- A table nobody else has open goes when it is dropped with `remove_files`. The other configuration is that
of `create`: `drop` takes it as well, or refuses it and changes nothing. -/
structure Drops (empties : Bool) (conn : WiredTiger) : Prop where
  destroys : ∀ tables uri, conn.dropped tables uri removeFiles false = Function.update tables uri none
  recreates : ∀ tables uri, conn.dropped tables uri schemaFormat false =
    if empties then Function.update tables uri none else tables

theorem Drops.transfer {empties : Bool} {conn conn' : WiredTiger} (drops : Drops empties conn)
    (same : conn'.dropped = conn.dropped) : Drops empties conn' where
  destroys := by
    rw [same]
    exact drops.destroys
  recreates := by
    rw [same]
    exact drops.recreates

/-- `recreate` is `kv_schema_alloc` with `is_force_drop`. -/
inductive LifeCall where
  | recreate (name : CString)
  | destroy (handle : Handle)
  | kv (call : KvCall)

inductive LifeReply where
  | destroyed
  | kv (reply : KvReply)
deriving DecidableEq

/-- The table of a schema is gone. Names that are cut off to the same URI share it. -/
def Store.forget (store : Store) (name : CString) : Store where
  allocated := store.allocated
  content := fun other => if schemaUri other = schemaUri name then fun _ => none else store.content other

def Store.close (store : Store) (name : CString) : Store where
  allocated := Function.update store.allocated name false
  content := (store.forget name).content

structure Catalog where
  store : Store
  opened : Handle → Option CString
  next : Handle

namespace Catalog

def initial (conn : WiredTiger) : Catalog := ⟨Store.initial conn, fun _ => none, 0⟩

def openAs (c : Catalog) (store : Store) (name : CString) : Catalog where
  store := store.next (.alloc name)
  opened := Function.update c.opened c.next (some name)
  next := c.next + 1

def answer (removeMissing : Int) (empties : Bool) (c : Catalog) : LifeCall → LifeReply × Catalog
  | .recreate name => (.kv (.alloc c.next), c.openAs (if empties then c.store.forget name else c.store) name)
  | .destroy handle => match c.opened handle with
      | some name => (.destroyed, { c with store := c.store.close name, opened := Function.update c.opened handle none })
      | none => (.destroyed, c)
  | .kv (.alloc name) => (.kv (.alloc c.next), c.openAs c.store name)
  | .kv call => (.kv (c.store.reply removeMissing c.next call), { c with store := c.store.next call })

def Clear (c : Catalog) (name : CString) : Prop :=
  ∀ other, c.store.allocated other → name.bytes <+: other.bytes → other = name

structure Fresh (c : Catalog) (name : CString) : Prop where
  unbegun : ∀ other, c.store.allocated other → ¬ name.bytes <+: other.bytes
  unending : ∀ other, c.store.allocated other → ¬ other.bytes <+: name.bytes
  apart : ∀ other, c.store.allocated other → schemaUri other ≠ schemaUri name
  few : c.next + 1 < 2 ^ 32

def Allowed (c : Catalog) : LifeCall → Prop
  | .recreate name => c.Fresh name
  | .destroy handle => (c.opened handle).isSome
  | .kv (.alloc name) => c.Fresh name
  | .kv (.del name _) => c.Clear name ∧ c.store.allocated name
  | .kv call => c.Clear call.name

end Catalog

structure Keeps (empties : Bool) (db : KvDb) (c : Catalog) : Prop where
  drops : Drops empties db.conn
  represents : ∃ initial, Represents initial db c.store
  next : c.next = db.nextHandle
  opened : ∀ handle, c.opened handle = (db.schemas handle).map KvSchema.name
  owned : ∀ handle schema, db.schemas handle = some schema → lookup db.schemaCtx schema.name = some handle
  prefixFree : ∀ a b, c.store.allocated a → c.store.allocated b → a.bytes <+: b.bytes → a = b
  few : entries db.schemaCtx ≤ db.nextHandle

section
variable {empties : Bool} {initial : WiredTiger} {db : KvDb} {store : Store} {c : Catalog} {name : CString}

theorem allocated_of_mem (represents : Represents initial db store) {i : Nat} {pair : DictDataPair Handle}
    (member : pair ∈ db.schemaCtx.members i) : lookup db.schemaCtx pair.key = some pair.val := by
  have placed := represents.registry.table.placed i pair member
  obtain ⟨before, after, split⟩ := List.append_of_mem member
  exact lookup_eq_some represents.registry.table (placed ▸ split) rfl

theorem clear_unshadowed (represents : Represents initial db c.store) (clear : c.Clear name) :
    Unshadowed db.schemaCtx name := by
  apply unshadowed_of_forall
  intro pair member begins
  have there := allocated_of_mem represents member
  exact clear pair.key (by rw [represents.allocated, there]; rfl) begins

theorem Catalog.Fresh.clear (fresh : c.Fresh name) : c.Clear name :=
  fun other allocated begins => absurd begins (fresh.unbegun other allocated)

/-! ## Dropping a table -/

def withoutTable (db : KvDb) (name : CString) : KvDb :=
  { db with conn := { db.conn with tables := Function.update db.conn.tables (schemaUri name) none } }

theorem Represents.forget (represents : Represents initial db store)
    (free : ∀ other, store.allocated other → schemaUri other ≠ schemaUri name) :
    Represents { initial with tables := Function.update initial.tables (schemaUri name) none } (withoutTable db name)
      (store.forget name) where
  registry := ⟨represents.registry.table, represents.registry.room, represents.registry.live, represents.registry.fresh⟩
  allocated := represents.allocated
  uris := represents.uris
  apart := represents.apart
  tables := by
    intro other present
    have different := free other present
    simpa [withoutTable, Store.forget, different] using represents.tables other present
  rest := by
    intro uri unused
    by_cases same : uri = schemaUri name
    · simp [withoutTable, same]
    · simpa [withoutTable, same] using represents.rest uri unused
  waiting := by
    intro other absent
    by_cases same : schemaUri other = schemaUri name
    · simp [Store.forget, same]
    · simpa [Store.forget, same] using represents.waiting other absent

theorem cursorOpen_eq_false {self : Handle} {uri : CString}
    (closed : ∀ handle schema, db.schemas handle = some schema → handle ≠ self → schema.uri ≠ uri) :
    cursorOpen db self uri = false := by
  rw [cursorOpen, List.any_eq_false]
  intro handle _
  by_cases same : handle = self
  · simp [same]
  · cases points : db.schemas handle with
    | none => simp
    | some schema =>
        have other := closed handle schema points same
        simpa [same] using other

theorem kvSchemaAlloc_recreate (drops : Drops empties db.conn) (represents : Represents initial db store)
    (free : ∀ other, store.allocated other → schemaUri other ≠ schemaUri name)
    (owned : ∀ handle schema, db.schemas handle = some schema → lookup db.schemaCtx schema.name = some handle) :
    kvSchemaAlloc db name true = kvSchemaAlloc (if empties then withoutTable db name else db) name false := by
  have closed : cursorOpen db db.nextHandle (schemaUri name) = false := by
    apply cursorOpen_eq_false
    intro handle schema points _
    rw [represents.uris handle schema points]
    apply free
    rw [represents.allocated, owned handle schema points]
    rfl
  simp only [kvSchemaAlloc, closed, if_true, WiredTiger.drop, drops.recreates]
  cases empties <;> rfl

/-! ## Opening a schema -/

theorem Catalog.Fresh.unallocated (fresh : c.Fresh name) : c.store.allocated name = false := by
  cases allocated : c.store.allocated name with
  | false => rfl
  | true => exact absurd (List.prefix_refl _) (fresh.unbegun name allocated)

theorem Drops.create (drops : Drops empties initial) (uri : CString) : Drops empties (initial.create uri) := by
  apply drops.transfer
  unfold WiredTiger.create
  cases initial.tables uri <;> rfl

theorem Keeps.openAs (keeps : Keeps empties db c) (fresh : c.Fresh name) :
    Keeps empties (kvSchemaAlloc db name false).2 (c.openAs c.store name) := by
  obtain ⟨initial, represents⟩ := keeps.represents
  have unshadowed := clear_unshadowed represents fresh.clear
  have unregistered : lookup db.schemaCtx name = none := by
    have unallocated := fresh.unallocated
    rw [represents.allocated] at unallocated
    exact Option.isNone_iff_eq_none.mp (by simpa using unallocated)
  have absent := (dictFind_absent represents.registry.table unshadowed).mpr (lookup_eq_none.mp unregistered)
  have few := keeps.few
  have condition : KvCondition db (.alloc name) := by
    refine ⟨.inr unshadowed, ?_, ?_⟩
    · intro other registered same
      rw [← represents.allocated] at registered
      exact absurd same (fresh.apart other registered)
    · have room := fresh.few
      rw [keeps.next] at room
      exact Nat.lt_of_le_of_lt (Nat.succ_le_succ few) room
  obtain ⟨heap, next⟩ := kvSchemaAlloc_heap db name false
  have split (other : CString) (allocated : (c.openAs c.store name).store.allocated other) :
      other = name ∨ c.store.allocated other := by
    by_cases same : other = name
    · exact .inl same
    · exact .inr (by simpa [Catalog.openAs, Store.next, same] using allocated)
  refine ⟨?_, ⟨initial, kvSchemaAlloc_represents represents condition⟩, ?_, ?_, ?_, ?_, ?_⟩
  · rw [kvSchemaAlloc_conn]
    exact keeps.drops.create _
  · rw [next, ← keeps.next]
    rfl
  · intro handle
    rw [heap, Catalog.openAs, keeps.next]
    by_cases new : handle = db.nextHandle
    · simp [new]
    · simpa [new] using keeps.opened handle
  · intro handle schema points
    rw [heap] at points
    rw [kvSchemaAlloc_schemaCtx, dictPut_lookup absent]
    by_cases new : handle = db.nextHandle
    · rw [new, Function.update_self] at points
      cases points
      rw [Function.update_self, new]
    · rw [Function.update_of_ne new] at points
      have own := keeps.owned handle schema points
      have other : schema.name ≠ name := by
        rintro same
        rw [same, unregistered] at own
        cases own
      rw [Function.update_of_ne other, own]
  · intro a b allocatedA allocatedB begins
    rcases split a allocatedA with rfl | oldA
    · rcases split b allocatedB with rfl | oldB
      · rfl
      · exact absurd begins (fresh.unbegun b oldB)
    · rcases split b allocatedB with rfl | oldB
      · exact absurd begins (fresh.unending a oldA)
      · exact keeps.prefixFree a b oldA oldB begins
  · rw [kvSchemaAlloc_schemaCtx, next]
    exact (entries_dictPut_le represents.registry.table name db.nextHandle).trans (Nat.succ_le_succ few)

theorem Keeps.recreate (keeps : Keeps empties db c) (fresh : c.Fresh name) :
    Keeps empties (kvSchemaAlloc db name true).2
      (c.openAs (if empties then c.store.forget name else c.store) name) := by
  obtain ⟨initial, represents⟩ := keeps.represents
  rw [kvSchemaAlloc_recreate keeps.drops represents fresh.apart keeps.owned]
  cases empties with
  | false => exact keeps.openAs fresh
  | true =>
      have emptied : Keeps true (withoutTable db name) { c with store := c.store.forget name } :=
        ⟨keeps.drops.transfer rfl, ⟨_, represents.forget fresh.apart⟩, keeps.next, keeps.opened, keeps.owned,
          keeps.prefixFree, keeps.few⟩
      exact emptied.openAs ⟨fresh.unbegun, fresh.unending, fresh.apart, fresh.few⟩

/-! ## Destroying a schema -/

theorem Keeps.find (keeps : Keeps empties db c) {handle : Handle} (opened : c.opened handle = some name) :
    db.schemas handle = some ⟨schemaUri name, name⟩ ∧ lookup db.schemaCtx name = some handle ∧
      c.store.allocated name := by
  obtain ⟨initial, represents⟩ := keeps.represents
  rw [keeps.opened, Option.map_eq_some_iff] at opened
  obtain ⟨⟨uri, own⟩, points, rfl⟩ := opened
  have same : uri = schemaUri own := represents.uris handle _ points
  have registered := keeps.owned handle _ points
  exact ⟨same ▸ points, registered, by rw [represents.allocated, registered]; rfl⟩

theorem Keeps.unshared (keeps : Keeps empties db c) {handle : Handle} (opened : c.opened handle = some name) :
    cursorOpen db handle (schemaUri name) = false := by
  obtain ⟨initial, represents⟩ := keeps.represents
  obtain ⟨_, registered, allocated⟩ := keeps.find opened
  apply cursorOpen_eq_false
  intro other schema points different same
  have own := keeps.owned other schema points
  rw [represents.uris other schema points] at same
  have name' := represents.apart schema.name name (by rw [represents.allocated, own]; rfl) allocated same
  rw [name', registered] at own
  exact different (Option.some.inj own).symm

def closed (db : KvDb) (handle : Handle) (name : CString) : KvDb where
  schemaCtx := (dictDel db.schemaCtx name).2.2
  conn := { db.conn with tables := Function.update db.conn.tables (schemaUri name) none }
  schemas := Function.update db.schemas handle none
  nextHandle := db.nextHandle

theorem Keeps.destroy_eq (keeps : Keeps empties db c) {handle : Handle} (opened : c.opened handle = some name) :
    kvSchemaDestroy db handle = .ok (closed db handle name) := by
  have points := (keeps.find opened).1
  have free := keeps.unshared opened
  simp [kvSchemaDestroy, points, kvDbUnregisterSchema, free, WiredTiger.drop, keeps.drops.destroys, closed]

theorem Keeps.lookup_closed (keeps : Keeps empties db c) {handle : Handle} (opened : c.opened handle = some name)
    (other : CString) :
    lookup (closed db handle name).schemaCtx other = Function.update (lookup db.schemaCtx) name none other := by
  obtain ⟨initial, represents⟩ := keeps.represents
  obtain ⟨_, registered, allocated⟩ := keeps.find opened
  have unshadowed : Unshadowed db.schemaCtx name :=
    clear_unshadowed represents fun other there begins => (keeps.prefixFree name other allocated there begins).symm
  cases find : dictFind db.schemaCtx name with
  | none =>
      have gone := lookup_eq_none.mpr ((dictFind_absent represents.registry.table unshadowed).mp find)
      rw [registered] at gone
      cases gone
  | some found =>
      exact dictDel_lookup represents.registry.table find (dictFind_own represents.registry.table unshadowed find) other

theorem Keeps.registry_closed (keeps : Keeps empties db c) {handle : Handle} (opened : c.opened handle = some name) :
    RegistryValid (closed db handle name) := by
  obtain ⟨initial, represents⟩ := keeps.represents
  obtain ⟨points, registered, allocated⟩ := keeps.find opened
  have ownFirst : OwnFirst db handle := by
    apply ownFirst_of_forall points
    intro pair member begins
    have there := allocated_of_mem represents member
    have same := keeps.prefixFree name pair.key allocated (by rw [represents.allocated, there]; rfl) begins
    rw [← same, registered] at there
    exact (Option.some.inj there).symm
  have step : guarded SchemaCondition schemaStep db (.destroy handle) none (closed db handle name) :=
    ⟨ownFirst, rfl, keeps.destroy_eq opened⟩
  exact schemaStep_registryValid represents.registry step

theorem Keeps.represents_closed (keeps : Keeps empties db c) (represents : Represents initial db c.store) {handle : Handle}
    (opened : c.opened handle = some name) :
    Represents { initial with tables := Function.update initial.tables (schemaUri name) none } (closed db handle name)
      (c.store.close name) := by
  obtain ⟨_, _, allocated⟩ := keeps.find opened
  have still (other : CString) (there : (c.store.close name).allocated other) : other ≠ name ∧ c.store.allocated other := by
    by_cases same : other = name
    · simp [Store.close, same] at there
    · exact ⟨same, by simpa [Store.close, same] using there⟩
  have elsewhere (other : CString) (there : (c.store.close name).allocated other) : schemaUri other ≠ schemaUri name :=
    fun same => (still other there).1 (represents.apart other name (still other there).2 allocated same)
  constructor
  · exact keeps.registry_closed opened
  · intro other
    rw [keeps.lookup_closed opened]
    by_cases same : other = name
    · simp [Store.close, same]
    · simpa [Store.close, same] using represents.allocated other
  · intro other schema points
    by_cases same : other = handle
    · simp [closed, same] at points
    · exact represents.uris other schema (by simpa [closed, same] using points)
  · intro a b thereA thereB
    exact represents.apart a b (still a thereA).2 (still b thereB).2
  · intro other there
    have different := elsewhere other there
    simpa [closed, Store.close, Store.forget, different] using represents.tables other (still other there).2
  · intro uri unused
    by_cases same : uri = schemaUri name
    · simp [closed, same]
    · simp only [closed, Function.update_of_ne same]
      apply represents.rest
      intro other there
      by_cases own : other = name
      · rw [own]
        exact Ne.symm same
      · exact unused other (by simpa [Store.close, own] using there)
  · intro other absent
    by_cases same : schemaUri other = schemaUri name
    · simp [Store.close, Store.forget, same]
    · have different : other ≠ name := fun equal => same (congrArg schemaUri equal)
      have waits := represents.waiting other (by simpa [Store.close, different] using absent)
      simpa [Store.close, Store.forget, same] using waits

theorem Keeps.destroy (keeps : Keeps empties db c) {handle : Handle} (opened : c.opened handle = some name) :
    Keeps empties (closed db handle name)
      { c with store := c.store.close name, opened := Function.update c.opened handle none } := by
  obtain ⟨initial, represents⟩ := keeps.represents
  obtain ⟨_, registered, _⟩ := keeps.find opened
  have still (other : CString) (there : (c.store.close name).allocated other) : c.store.allocated other := by
    by_cases same : other = name
    · simp [Store.close, same] at there
    · simpa [Store.close, same] using there
  refine ⟨keeps.drops.transfer rfl, ⟨_, keeps.represents_closed represents opened⟩, keeps.next, ?_, ?_, ?_, ?_⟩
  · intro other
    by_cases same : other = handle
    · simp [closed, same]
    · simpa [closed, same] using keeps.opened other
  · intro other schema points
    have different : other ≠ handle := by
      rintro rfl
      simp [closed] at points
    have own := keeps.owned other schema (by simpa [closed, different] using points)
    have another : schema.name ≠ name := by
      intro same
      rw [same, registered] at own
      exact different (Option.some.inj own).symm
    rw [keeps.lookup_closed opened, Function.update_of_ne another, own]
  · intro a b thereA thereB
    exact keeps.prefixFree a b (still a thereA) (still b thereB)
  · exact (entries_dictDel_le represents.registry.table name).trans keeps.few

/-! ## Every call -/

theorem insert_dropped (conn : WiredTiger) (uri : CString) (key val : Bytes) :
    (conn.insert uri key val).2.dropped = conn.dropped := by
  unfold WiredTiger.insert
  split <;> rfl

theorem remove_dropped (removeMissing : Int) (conn : WiredTiger) (uri : CString) (key : Bytes) :
    (conn.remove removeMissing uri key).2.dropped = conn.dropped := by
  unfold WiredTiger.remove
  split
  · split <;> rfl
  · rfl

theorem kvCall_frame {removeMissing : Int} {call : KvCall} {reply : KvReply} {db' : KvDb} (other : call.isAlloc = false)
    (returned : kvCall removeMissing db call = .ok (reply, db')) :
    db'.schemaCtx = db.schemaCtx ∧ db'.schemas = db.schemas ∧ db'.nextHandle = db.nextHandle ∧
      db'.conn.dropped = db.conn.dropped := by
  cases call with
  | alloc name => cases other
  | set name key val =>
      obtain ⟨⟨ret, next⟩, sets, same⟩ := Exec.bind_eq_ok.mp returned
      cases same
      obtain ⟨named, _, rest⟩ := Exec.bind_eq_ok.mp sets
      cases named with
      | none => cases rest; exact ⟨rfl, rfl, rfl, rfl⟩
      | some schema => cases rest; exact ⟨rfl, rfl, rfl, insert_dropped _ _ _ _⟩
  | get name key =>
      obtain ⟨_, _, same⟩ := Exec.bind_eq_ok.mp returned
      cases same
      exact ⟨rfl, rfl, rfl, rfl⟩
  | search name key =>
      obtain ⟨_, _, same⟩ := Exec.bind_eq_ok.mp returned
      cases same
      exact ⟨rfl, rfl, rfl, rfl⟩
  | del name key =>
      obtain ⟨⟨ret, next⟩, dels, same⟩ := Exec.bind_eq_ok.mp returned
      cases same
      obtain ⟨named, _, rest⟩ := Exec.bind_eq_ok.mp dels
      cases named <;> cases rest
      exact ⟨rfl, rfl, rfl, remove_dropped _ _ _ _⟩

theorem Store.next_allocated {call : KvCall} (other : call.isAlloc = false) :
    (store.next call).allocated = store.allocated := by
  cases call with
  | alloc name => cases other
  | set name key val =>
      rw [Store.next]
      split <;> rfl
  | get name key => rfl
  | search name key => rfl
  | del name key =>
      rw [Store.next]
      split <;> rfl

theorem Keeps.condition (keeps : Keeps empties db c) {call : KvCall} (other : call.isAlloc = false)
    (allowed : c.Allowed (.kv call)) : KvCondition db call := by
  obtain ⟨initial, represents⟩ := keeps.represents
  cases call with
  | alloc name => cases other
  | set name key val => exact clear_unshadowed represents allowed
  | get name key => exact clear_unshadowed represents allowed
  | search name key => exact clear_unshadowed represents allowed
  | del name key => exact ⟨clear_unshadowed represents allowed.1, represents.allocated name ▸ allowed.2⟩

theorem Keeps.kv (keeps : Keeps empties db c) (removeMissing : Int) {call : KvCall} (other : call.isAlloc = false)
    (allowed : c.Allowed (.kv call)) :
    ∃ db', kvCall removeMissing db call = .ok (c.store.reply removeMissing c.next call, db') ∧
      Keeps empties db' { c with store := c.store.next call } := by
  have condition := keeps.condition other allowed
  obtain ⟨initial, represents⟩ := keeps.represents
  obtain ⟨db', returned, represents', _⟩ := kvCall_represents represents removeMissing call condition
  obtain ⟨registry, schemas, next, drops⟩ := kvCall_frame other returned
  refine ⟨db', keeps.next ▸ returned, keeps.drops.transfer drops, ⟨_, represents'⟩, ?_, ?_, ?_, ?_, ?_⟩
  · rw [next]
    exact keeps.next
  · rw [schemas]
    exact keeps.opened
  · rw [schemas, registry]
    exact keeps.owned
  · rw [Store.next_allocated other]
    exact keeps.prefixFree
  · rw [registry, next]
    exact keeps.few

end

end SampleFs.Proof.KvDb

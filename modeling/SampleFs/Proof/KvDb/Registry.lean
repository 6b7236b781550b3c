import SampleFs.Metaserver.KvDb
import SampleFs.Proof.Dict.Invariant

namespace SampleFs.Proof.KvDb
open Lib Metaserver Dict

def Registered (db : KvDb) (pair : DictDataPair Handle) : Prop := ∃ i, pair ∈ db.schemaCtx.members i

def RegistryLive (db : KvDb) : Prop :=
  ∀ pair, Registered db pair → ∃ schema, db.schemas pair.val = some schema ∧ schema.name = pair.key

structure RegistryValid (db : KvDb) : Prop where
  table : Valid db.schemaCtx
  room : entries db.schemaCtx < 2 ^ 32
  live : RegistryLive db
  fresh : ∀ handle, db.nextHandle ≤ handle → db.schemas handle = none

inductive SchemaCall where
  | alloc (name : CString) (isForceDrop : Bool)
  | destroy (handle : Handle)

def schemaStep : System KvDb SchemaCall (Option Handle)
  | db, .alloc name isForceDrop, reply, db' =>
      reply = some (kvSchemaAlloc db name isForceDrop).1 ∧ db' = (kvSchemaAlloc db name isForceDrop).2
  | db, .destroy handle, reply, db' => reply = none ∧ kvSchemaDestroy db handle = .ok db'

/-- Every registration that begins with the name of `handle`, other than that of `handle` itself,
stands behind the registration of `handle`. -/
def OwnFirst (db : KvDb) (handle : Handle) : Prop :=
  ∀ schema, db.schemas handle = some schema →
    ∀ before pair after, db.schemaCtx.members (dictIndex db.schemaCtx schema.name) = before ++ pair :: after →
      schema.name.bytes <+: pair.key.bytes → pair.val ≠ handle → ∃ own ∈ before, own.val = handle

def SchemaCondition (db : KvDb) : SchemaCall → Prop
  | .alloc _ _ => entries db.schemaCtx + 1 < 2 ^ 32
  | .destroy handle => OwnFirst db handle

def SafeDestroy (db : KvDb) (handle : Handle) : Prop :=
  ∃ db', kvSchemaDestroy db handle = .ok db' ∧ RegistryLive db' ∧
    ∀ pair, Registered db pair → pair.val ≠ handle → Registered db' pair

theorem kvDbAlloc_registryValid (hashFn : CString → UInt32) (conn : WiredTiger) :
    RegistryValid (kvDbAlloc hashFn conn) where
  table := dictCreate_valid (by decide) hashFn
  room := by simp [entries, Chain.total, kvDbAlloc, dictCreate, dictInit]
  live := by
    rintro pair ⟨i, member⟩
    simp [kvDbAlloc, dictCreate, dictInit] at member
  fresh := fun _ _ => rfl

theorem kvDbRegisterSchema_schemaCtx (db : KvDb) (handle : Handle) (name : CString) :
    (kvDbRegisterSchema db handle name).2.schemaCtx = (dictPut db.schemaCtx name handle).2 := by
  unfold kvDbRegisterSchema
  split <;> simp_all

theorem kvSchemaAlloc_schemaCtx (db : KvDb) (name : CString) (isForceDrop : Bool) :
    (kvSchemaAlloc db name isForceDrop).2.schemaCtx = (dictPut db.schemaCtx name db.nextHandle).2 :=
  kvDbRegisterSchema_schemaCtx _ _ _

theorem kvSchemaAlloc_heap (db : KvDb) (name : CString) (isForceDrop : Bool) :
    (kvSchemaAlloc db name isForceDrop).2.schemas =
        Function.update db.schemas db.nextHandle (some ⟨schemaUri name, name⟩) ∧
      (kvSchemaAlloc db name isForceDrop).2.nextHandle = db.nextHandle + 1 := by
  unfold kvSchemaAlloc kvDbRegisterSchema
  dsimp only
  split <;> exact ⟨rfl, rfl⟩

theorem kvSchemaAlloc_registryValid {db : KvDb} (valid : RegistryValid db) (name : CString)
    (isForceDrop : Bool) (room : entries db.schemaCtx + 1 < 2 ^ 32) :
    RegistryValid (kvSchemaAlloc db name isForceDrop).2 := by
  obtain ⟨heap, next⟩ := kvSchemaAlloc_heap db name isForceDrop
  have registry := kvSchemaAlloc_schemaCtx db name isForceDrop
  have bound := (entries_dictPut_le valid.table name db.nextHandle).trans_lt room
  constructor
  · rw [registry]
    exact dictPut_valid valid.table name db.nextHandle bound
  · rwa [registry]
  · rintro pair ⟨i, member⟩
    rw [registry] at member
    rw [heap]
    rcases mem_dictPut member with member | rfl
    · obtain ⟨schema, points, named⟩ := valid.live pair ⟨i, member⟩
      have old : pair.val ≠ db.nextHandle := by
        intro same
        rw [same, valid.fresh _ le_rfl] at points
        cases points
      exact ⟨schema, by rw [Function.update_of_ne old, points], named⟩
    · exact ⟨_, Function.update_self .., rfl⟩
  · intro handle later
    rw [next] at later
    rw [heap, Function.update_of_ne (Nat.lt_of_succ_le later).ne']
    exact valid.fresh handle (Nat.le_of_succ_le later)

/-! ## Destroying a handle -/

theorem kvSchemaDestroy_eq {db : KvDb} {handle : Handle} {schema : KvSchema}
    (points : db.schemas handle = some schema) :
    ∃ db', kvSchemaDestroy db handle = .ok db' ∧
      db'.schemaCtx = (dictDel db.schemaCtx schema.name).2.2 ∧
      db'.schemas = Function.update db.schemas handle none ∧ db'.nextHandle = db.nextHandle := by
  unfold kvSchemaDestroy
  rw [points]
  exact ⟨_, rfl, rfl, rfl, rfl⟩

theorem ownFirst_find {db : KvDb} (valid : RegistryValid db) {handle : Handle} {schema : KvSchema}
    (points : db.schemas handle = some schema) (ownFirst : OwnFirst db handle)
    {found : Chain.Found (DictDataPair Handle)}
    (stops : dictFind db.schemaCtx schema.name = some found) : found.here.val = handle := by
  obtain ⟨split, begins, misses⟩ := (dictFind_eq_some valid.table schema.name).mp stops
  by_contra other
  obtain ⟨own, member, same⟩ := ownFirst schema points _ _ _ split begins other
  obtain ⟨schema', points', named⟩ := valid.live own ⟨_, by rw [split]; simp [member]⟩
  rw [same, points] at points'
  cases points'
  exact misses own member (by rw [named])

theorem safeDestroy_of_ownFirst {db : KvDb} (valid : RegistryValid db) {handle : Handle}
    (alive : (db.schemas handle).isSome) (ownFirst : OwnFirst db handle) : SafeDestroy db handle := by
  obtain ⟨schema, points⟩ := Option.isSome_iff_exists.mp alive
  obtain ⟨db', destroyed, registry, heap, _⟩ := kvSchemaDestroy_eq points
  refine ⟨db', destroyed, ?_, ?_⟩
  · rintro pair ⟨i, member⟩
    rw [registry] at member
    have before := mem_of_mem_dictDel valid.table member
    obtain ⟨schema', points', named⟩ := valid.live pair ⟨i, before⟩
    -- a registration of the freed handle would carry its name, and the deletion would have met it
    have other : pair.val ≠ handle := by
      intro same
      rw [same, points] at points'
      cases points'
      have bucket := valid.table.placed i pair before
      rw [← named] at bucket
      subst bucket
      cases find : dictFind db.schemaCtx schema.name with
      | none =>
          exact (dictFind_eq_none valid.table _).mp find pair before (by rw [named])
      | some found =>
          have own := ownFirst_find valid points ownFirst find
          have here := ((dictFind_eq_some valid.table _).mp find).1
          obtain ⟨_, points'', named'⟩ := valid.live found.here ⟨_, by rw [here]; simp⟩
          rw [own, points] at points''
          cases points''
          exact dictDel_removes valid.table find member (named.symm.trans named')
    exact ⟨schema', by rw [heap, Function.update_of_ne other, points'], named⟩
  · rintro pair ⟨i, member⟩ other
    rcases mem_dictDel valid.table schema.name member with kept | ⟨found, stops, rfl⟩
    · exact ⟨i, by rw [registry]; exact kept⟩
    · exact absurd (ownFirst_find valid points ownFirst stops) other

theorem ownFirst_of_safeDestroy {db : KvDb} (valid : RegistryValid db) {handle : Handle}
    (safe : SafeDestroy db handle) : OwnFirst db handle := by
  intro schema points before pair after split begins other
  obtain ⟨db', destroyed, registry, _, _⟩ := kvSchemaDestroy_eq points
  obtain ⟨db'', destroyed', _, kept⟩ := safe
  rw [destroyed] at destroyed'
  cases destroyed'
  cases find : dictFind db.schemaCtx schema.name with
  | none => exact absurd begins ((dictFind_eq_none valid.table _).mp find pair (by simp [split]))
  | some found =>
      obtain ⟨split', _, misses⟩ := (dictFind_eq_some valid.table _).mp find
      have own : found.here.val = handle := by
        by_contra different
        obtain ⟨i, member⟩ := kept found.here ⟨_, by rw [split']; simp⟩ different
        rw [registry] at member
        exact dictDel_removes valid.table find member rfl
      refine ⟨found.here, Chain.Found.mem_before split' misses split begins ?_, own⟩
      intro here
      exact other (here ▸ own)

theorem schemaStep_registryValid {db db' : KvDb} {call : SchemaCall} {reply : Option Handle}
    (valid : RegistryValid db) (step : guarded SchemaCondition schemaStep db call reply db') :
    RegistryValid db' := by
  obtain ⟨condition, taken⟩ := step
  cases call with
  | alloc name isForceDrop =>
      obtain ⟨_, rfl⟩ := taken
      exact kvSchemaAlloc_registryValid valid name isForceDrop condition
  | destroy handle =>
      obtain ⟨_, destroyed⟩ := taken
      cases points : db.schemas handle with
      | none => simp [kvSchemaDestroy, points] at destroyed
      | some schema =>
          obtain ⟨db'', destroyed', registry, heap, next⟩ := kvSchemaDestroy_eq points
          obtain ⟨db3, destroyed3, live, _⟩ := safeDestroy_of_ownFirst valid (by simp [points]) condition
          rw [destroyed] at destroyed' destroyed3
          cases destroyed'
          cases destroyed3
          refine ⟨?_, ?_, live, ?_⟩
          · rw [registry]
            exact dictDel_valid valid.table schema.name
          · rw [registry]
            exact (entries_dictDel_le valid.table schema.name).trans_lt valid.room
          · intro other later
            rw [heap]
            by_cases same : other = handle
            · rw [same, Function.update_self]
            · rw [Function.update_of_ne same]
              exact valid.fresh other (next ▸ later)

theorem registry_liveness (hashFn : CString → UInt32) (conn : WiredTiger)
    {history : List (SchemaCall × Option Handle)} {db : KvDb}
    (run : Run (guarded SchemaCondition schemaStep) (kvDbAlloc hashFn conn) history db) :
    RegistryLive db ∧
      ∀ handle, (db.schemas handle).isSome → (SafeDestroy db handle ↔ OwnFirst db handle) := by
  have valid : RegistryValid db := run.invariant RegistryValid
    (fun _ _ _ _ => schemaStep_registryValid) (kvDbAlloc_registryValid hashFn conn)
  refine ⟨valid.live, fun handle alive => ⟨?_, ?_⟩⟩
  · exact ownFirst_of_safeDestroy valid
  · exact safeDestroy_of_ownFirst valid alive

-- An idle table goes with its files; a key of `create` is an error to `drop`, which then changes nothing.
def idleDropped (tables : CString → Option Table) (uri : CString) (config : String) (busy : Bool) :
    CString → Option Table :=
  if config = removeFiles ∧ busy = false then Function.update tables uri none else tables

abbrev emptyConn : WiredTiger := ⟨fun _ => none, idleDropped⟩
abbrev docs : CString := ⟨[100, 111, 99, 115], by decide⟩
abbrev freshDb : KvDb := kvDbAlloc (fun _ => 0) emptyConn
abbrev twiceDocs : KvDb := (kvSchemaAlloc (kvSchemaAlloc freshDb docs false).2 docs false).2

theorem twiceDocs_registryValid : RegistryValid twiceDocs :=
  kvSchemaAlloc_registryValid
    (kvSchemaAlloc_registryValid (kvDbAlloc_registryValid _ _) docs false (by decide +kernel))
    docs false (by decide +kernel)

/-- The second handle of a name is not registered, and destroying it takes the first one's
registration. -/
theorem registry_second_destroy :
    Run schemaStep freshDb [(.alloc docs false, some 0), (.alloc docs false, some 1)] twiceDocs ∧
      Registered twiceDocs ⟨docs, 0⟩ ∧ (twiceDocs.schemas 0).isSome ∧ (twiceDocs.schemas 1).isSome ∧
      ¬ SafeDestroy twiceDocs 1 := by
  refine ⟨.cons ⟨rfl, rfl⟩ (.single ⟨rfl, rfl⟩), ⟨dictIndex twiceDocs.schemaCtx docs, by decide +kernel⟩,
    by decide +kernel, by decide +kernel, ?_⟩
  intro safe
  have chain : twiceDocs.schemaCtx.members (dictIndex twiceDocs.schemaCtx docs) = [] ++ ⟨docs, 0⟩ :: [] := by
    decide +kernel
  obtain ⟨own, member, _⟩ := ownFirst_of_safeDestroy twiceDocs_registryValid safe ⟨schemaUri docs, docs⟩
    (by decide +kernel) [] ⟨docs, 0⟩ [] chain (List.prefix_refl _) (by decide)
  cases member

theorem ownFirst_of_forall {db : KvDb} {handle : Handle} {schema : KvSchema}
    (points : db.schemas handle = some schema)
    (alone : ∀ pair ∈ db.schemaCtx.members (dictIndex db.schemaCtx schema.name),
      schema.name.bytes <+: pair.key.bytes → pair.val = handle) : OwnFirst db handle := by
  intro schema' points' before pair after split begins other
  rw [points] at points'
  cases points'
  exact absurd (alone pair (by simp [split]) begins) other

abbrev entriesName : CString := ⟨[101, 110, 116, 114, 105, 101, 115], by decide⟩
abbrev docsEntries : KvDb := (kvSchemaAlloc (kvSchemaAlloc freshDb docs false).2 entriesName false).2

theorem registry_liveness_docs :
    Run (guarded SchemaCondition schemaStep) freshDb
        [(.alloc docs false, some 0), (.alloc entriesName false, some 1)] docsEntries ∧
      RegistryLive docsEntries ∧ SafeDestroy docsEntries 0 := by
  have run : Run (guarded SchemaCondition schemaStep) freshDb
      [(.alloc docs false, some 0), (.alloc entriesName false, some 1)] docsEntries :=
    .cons ⟨show entries freshDb.schemaCtx + 1 < 2 ^ 32 by decide +kernel, rfl, rfl⟩
      (.single ⟨show entries (kvSchemaAlloc freshDb docs false).2.schemaCtx + 1 < 2 ^ 32 by decide +kernel,
        rfl, rfl⟩)
  have points : docsEntries.schemas 0 = some ⟨schemaUri docs, docs⟩ := by decide +kernel
  obtain ⟨live, safe⟩ := registry_liveness (fun _ => 0) emptyConn run
  exact ⟨run, live, (safe 0 (by rw [points]; rfl)).mpr (ownFirst_of_forall points (by decide +kernel))⟩

end SampleFs.Proof.KvDb

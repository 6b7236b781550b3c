import SampleFs.Metaserver.SchmeaMeta
import SampleFs.Proof.KvDb.Isolation

namespace SampleFs.Proof.KvDb
open Lib Metaserver Dict

structure MetaState where
  cache : Dict Bytes
  db : KvDb

inductive CacheCall where
  | add (key : CString) (val : Bytes)
  | del (key : CString)

def CacheCall.key : CacheCall → CString
  | .add key _ => key
  | .del key => key

variable (removeMissing : Int) (metaName : CString)

def cacheCall (s : MetaState) : CacheCall → Exec Fault (Int × MetaState)
  | .add key val => do
      let (ret, cache, db) ← schmeaCacheAdd s.cache s.db metaName key val
      pure (ret, ⟨cache, db⟩)
  | .del key => do
      let (ret, cache, db) ← schmeaCacheDel removeMissing s.cache s.db metaName key
      pure (ret, ⟨cache, db⟩)

def cacheStep : System MetaState CacheCall Int :=
  fun s call ret s' => cacheCall removeMissing metaName s call = .ok (ret, s')

def Coherent (s : MetaState) : Prop :=
  ∃ table, s.db.conn.tables (schemaUri metaName) = some table ∧
    (∀ key : CString, table key.bytes = lookup s.cache key) ∧ ∀ raw, (table raw).isSome → 0 ∉ raw

def MeetsCoherence (s : MetaState) (call : CacheCall) : Prop :=
  ∃ ret s', cacheCall removeMissing metaName s call = .ok (ret, s') ∧ Coherent metaName s' ∧
    (ret ≠ 0 → s' = s)

/-- A re-add carries the record that is there already, and no key of the bucket that begins with
the key of the call stands in its way. -/
def CacheCondition (s : MetaState) : CacheCall → Prop
  | .add key val => lookup s.cache key = some val ∨ (lookup s.cache key = none ∧ Unshadowed s.cache key)
  | .del key => (lookup s.cache key = none ∧ removeMissing ≠ 0) ∨ Unshadowed s.cache key

def Roomy (s : MetaState) : Prop := entries s.cache + 1 < 2 ^ 32

structure CacheValid (s : MetaState) (initial : WiredTiger) (store : Store) : Prop where
  represents : Represents initial s.db store
  allocated : store.allocated metaName
  findable : Unshadowed s.db.schemaCtx metaName
  table : Valid s.cache
  room : entries s.cache < 2 ^ 32
  agrees : ∀ key : CString, store.content metaName key.bytes = lookup s.cache key
  strings : ∀ raw, (store.content metaName raw).isSome → 0 ∉ raw

variable {removeMissing metaName} {s : MetaState} {initial : WiredTiger} {store : Store}

theorem CacheValid.coherent (valid : CacheValid metaName s initial store) : Coherent metaName s :=
  ⟨_, valid.represents.tables metaName valid.allocated, valid.agrees, valid.strings⟩

theorem coherent_withTable {cache : Dict Bytes} {db : KvDb} {table : Table} :
    Coherent metaName ⟨cache, withTable db metaName table⟩ ↔
      (∀ key : CString, table key.bytes = lookup cache key) ∧ ∀ raw, (table raw).isSome → 0 ∉ raw := by
  unfold Coherent withTable
  simp

theorem cacheAdd_eq (valid : CacheValid metaName s initial store) (key : CString) (val : Bytes) :
    cacheCall removeMissing metaName s (.add key val) =
      .ok (if (dictPut s.cache key val).1.isNone then -1 else 0, ⟨(dictPut s.cache key val).2,
        withTable s.db metaName (Function.update (store.content metaName) key.bytes (some val))⟩) := by
  have set := kvDbSet_eq valid.represents valid.findable key.bytes val
  rw [if_pos valid.allocated] at set
  simp [cacheCall, schmeaCacheAdd, set]

theorem cacheDel_eq (valid : CacheValid metaName s initial store) (key : CString) :
    cacheCall removeMissing metaName s (.del key) =
      .ok (if (lookup s.cache key).isSome then 0 else removeMissing,
        ⟨if (lookup s.cache key).isSome ∨ removeMissing = 0 then (dictDel s.cache key).2.2 else s.cache,
        withTable s.db metaName (Function.update (store.content metaName) key.bytes none)⟩) := by
  have del := kvDbDel_eq valid.represents removeMissing valid.findable valid.allocated key.bytes
  rw [valid.agrees] at del
  cases stored : lookup s.cache key with
  | some old => simp [cacheCall, schmeaCacheDel, del, stored]
  | none =>
      by_cases zero : removeMissing = 0
      · subst zero
        simp [cacheCall, schmeaCacheDel, del, stored]
      · simp [cacheCall, schmeaCacheDel, del, stored, zero]

/-! ## The condition is enough -/

theorem update_agrees (valid : CacheValid metaName s initial store) (key : CString) (val : Option Bytes)
    (other : CString) :
    Function.update (store.content metaName) key.bytes val other.bytes =
      Function.update (lookup s.cache) key val other := by
  by_cases same : other = key
  · rw [same, Function.update_self, Function.update_self]
  · have bytes : other.bytes ≠ key.bytes := fun equal => same (CString.ext equal)
    rw [Function.update_of_ne bytes, Function.update_of_ne same, valid.agrees]

theorem update_strings (valid : CacheValid metaName s initial store) (key : CString) (val : Option Bytes)
    (raw : Bytes) (present : (Function.update (store.content metaName) key.bytes val raw).isSome) :
    0 ∉ raw := by
  by_cases same : raw = key.bytes
  · rw [same]
    exact key.noNul
  · rw [Function.update_of_ne same] at present
    exact valid.strings raw present

theorem CacheValid.replace (valid : CacheValid metaName s initial store) {key : CString}
    {val : Option Bytes} {cache : Dict Bytes} (table : Valid cache) (room : entries cache < 2 ^ 32)
    (agrees : ∀ other, lookup cache other = Function.update (lookup s.cache) key val other) :
    CacheValid metaName
      ⟨cache, withTable s.db metaName (Function.update (store.content metaName) key.bytes val)⟩ initial
      (store.write metaName (Function.update (store.content metaName) key.bytes val)) where
  represents := valid.represents.write valid.allocated _
  allocated := valid.allocated
  findable := valid.findable
  table := table
  room := room
  agrees := by
    intro other
    rw [agrees]
    simp only [Store.write, Function.update_self]
    exact update_agrees valid key val other
  strings := by
    intro raw present
    simp only [Store.write, Function.update_self] at present
    exact update_strings valid key val raw present

theorem cacheAdd_valid (valid : CacheValid metaName s initial store) (roomy : Roomy s) {key : CString}
    {val : Bytes} (condition : CacheCondition removeMissing s (.add key val)) :
    ∃ ret s' store', cacheCall removeMissing metaName s (.add key val) = .ok (ret, s') ∧
      CacheValid metaName s' initial store' ∧ (ret ≠ 0 → s' = s) := by
  rw [cacheAdd_eq valid]
  rcases condition with same | ⟨absent, unshadowed⟩
  · have kept : Function.update (store.content metaName) key.bytes (some val) = store.content metaName := by
      rw [← same, ← valid.agrees, Function.update_eq_self]
    have table := withTable_same (valid.represents.tables metaName valid.allocated)
    rw [kept, table, dictPut_present valid.table val (by simp [same])]
    exact ⟨_, _, store, rfl, valid, fun _ => rfl⟩
  · have free : dictFind s.cache key = none :=
      (dictFind_absent valid.table unshadowed).mpr (lookup_eq_none.mp absent)
    have room := (entries_dictPut_le valid.table key val).trans_lt roomy
    have stored := valid.replace (dictPut_valid valid.table key val room) room (dictPut_lookup free)
    refine ⟨_, _, _, rfl, stored, ?_⟩
    simp [dictPut, free]

theorem cacheDel_valid (valid : CacheValid metaName s initial store) {key : CString}
    (condition : CacheCondition removeMissing s (.del key)) :
    ∃ ret s' store', cacheCall removeMissing metaName s (.del key) = .ok (ret, s') ∧
      CacheValid metaName s' initial store' ∧ (ret ≠ 0 → s' = s) := by
  rw [cacheDel_eq valid]
  cases stored : lookup s.cache key with
  | some old =>
      have unshadowed := condition.resolve_left (by simp [stored])
      have room := (entries_dictDel_le valid.table key).trans_lt valid.room
      cases find : dictFind s.cache key with
      | none =>
          have absent := lookup_eq_none.mpr ((dictFind_absent valid.table unshadowed).mp find)
          rw [stored] at absent
          cases absent
      | some found =>
          have erased := valid.replace (dictDel_valid valid.table key) room
            (dictDel_lookup valid.table find (dictFind_own valid.table unshadowed find))
          exact ⟨_, _, _, rfl, by simpa using erased, by simp⟩
  | none =>
      have kept : Function.update (store.content metaName) key.bytes none = store.content metaName := by
        rw [← stored, ← valid.agrees, Function.update_eq_self]
      have table := withTable_same (valid.represents.tables metaName valid.allocated)
      have cache : (if (none : Option Bytes).isSome ∨ removeMissing = 0 then (dictDel s.cache key).2.2
          else s.cache) = s.cache := by
        by_cases zero : removeMissing = 0
        · have unshadowed := condition.resolve_left (by simp [zero])
          have free : dictFind s.cache key = none :=
            (dictFind_absent valid.table unshadowed).mpr (lookup_eq_none.mp stored)
          simp [zero, dictDel, free]
        · simp [zero]
      rw [kept, table, cache]
      exact ⟨_, _, store, rfl, valid, fun _ => rfl⟩

theorem cacheCall_valid (valid : CacheValid metaName s initial store) (roomy : Roomy s)
    {call : CacheCall} (condition : CacheCondition removeMissing s call) :
    ∃ ret s' store', cacheCall removeMissing metaName s call = .ok (ret, s') ∧
      CacheValid metaName s' initial store' ∧ (ret ≠ 0 → s' = s) := by
  cases call with
  | add key val => exact cacheAdd_valid valid roomy condition
  | del key => exact cacheDel_valid valid condition

/-! ## The condition is needed -/

theorem shadowed_find {V : Type} {d : Dict V} (valid : Valid d) {key : CString}
    (shadowed : ¬ Unshadowed d key) :
    ∃ found, dictFind d key = some found ∧ found.here.key ≠ key := by
  by_contra none
  apply shadowed
  apply unshadowed_of_own valid
  intro found stops
  by_contra other
  exact none ⟨found, stops, other⟩

theorem cacheAdd_condition (valid : CacheValid metaName s initial store) {key : CString} {val : Bytes}
    (meets : MeetsCoherence removeMissing metaName s (.add key val)) :
    CacheCondition removeMissing s (.add key val) := by
  obtain ⟨ret, s', returned, coherent, _⟩ := meets
  rw [cacheAdd_eq valid] at returned
  obtain ⟨_, rfl⟩ := Prod.mk.inj (Exec.ok.inj returned)
  have agrees := (coherent_withTable.mp coherent).1 key
  rw [Function.update_self] at agrees
  by_cases stored : lookup s.cache key = some val
  · exact .inl stored
  · cases find : dictFind s.cache key with
    | some found =>
        simp only [dictPut, find] at agrees
        exact .inl agrees.symm
    | none =>
        refine .inr ⟨?_, unshadowed_of_own valid.table (by simp [find])⟩
        apply lookup_eq_none.mpr
        intro pair member same
        exact (dictFind_eq_none valid.table key).mp find pair member (by rw [same])

theorem cacheDel_condition (valid : CacheValid metaName s initial store) {key : CString}
    (meets : MeetsCoherence removeMissing metaName s (.del key)) :
    CacheCondition removeMissing s (.del key) := by
  obtain ⟨ret, s', returned, coherent, _⟩ := meets
  rw [cacheDel_eq valid] at returned
  obtain ⟨_, rfl⟩ := Prod.mk.inj (Exec.ok.inj returned)
  by_contra fails
  simp only [CacheCondition, not_or, not_and, not_not] at fails
  obtain ⟨found, stops, other⟩ := shadowed_find valid.table fails.2
  have taken : (lookup s.cache key).isSome ∨ removeMissing = 0 := by
    cases stored : lookup s.cache key with
    | some old => exact .inl rfl
    | none => exact .inr (fails.1 stored)
  -- the table loses `key`, the cache loses the key of the pair the search stopped at
  have agrees := (coherent_withTable.mp coherent).1 found.here.key
  have split := ((dictFind_eq_some valid.table key).mp stops).1
  have placed := valid.table.placed _ found.here (by rw [split]; simp)
  have gone : lookup (dictDel s.cache key).2.2 found.here.key = none := by
    apply lookup_eq_none.mpr
    intro pair member
    exact dictDel_removes valid.table stops member
  rw [if_pos taken, gone, update_agrees valid, Function.update_of_ne other,
    lookup_eq_some valid.table (placed ▸ split) rfl] at agrees
  cases agrees

theorem meetsCoherence_iff (valid : CacheValid metaName s initial store) (roomy : Roomy s)
    (call : CacheCall) :
    MeetsCoherence removeMissing metaName s call ↔ CacheCondition removeMissing s call := by
  constructor
  · intro meets
    cases call with
    | add key val => exact cacheAdd_condition valid meets
    | del key => exact cacheDel_condition valid meets
  · intro condition
    obtain ⟨ret, s', store', returned, valid', unchanged⟩ := cacheCall_valid valid roomy condition
    exact ⟨ret, s', returned, valid'.coherent, unchanged⟩

def metaStart (hashFn cacheHash : CString → UInt32) (conn : WiredTiger) (metaName : CString) : MetaState where
  cache := dictCreate schemaMaxSize cacheHash
  db := (kvSchemaAlloc (kvDbAlloc hashFn conn) metaName false).2

theorem metaStart_valid (hashFn cacheHash : CString → UInt32) {conn : WiredTiger} {metaName : CString}
    (empty : ∀ table, conn.tables (schemaUri metaName) = some table → ∀ raw, table raw = none) :
    CacheValid metaName (metaStart hashFn cacheHash conn metaName) conn
      ((Store.initial conn).next (.alloc metaName)) := by
  have nothing (i : Nat) : (kvDbAlloc hashFn conn).schemaCtx.members i = [] := rfl
  have condition : KvCondition (kvDbAlloc hashFn conn) (.alloc metaName) := by
    refine ⟨.inr (unshadowed_of_forall (by simp [nothing])), ?_, ?_⟩
    · intro other registered
      simp [lookup, nothing] at registered
    · simp [entries, Chain.total, nothing]
  have blank (raw : Bytes) : (Store.initial conn).content metaName raw = none := by
    cases table : conn.tables (schemaUri metaName) with
    | none => simp [Store.initial, table]
    | some table' => simpa [Store.initial, table] using empty table' table raw
  constructor
  · exact kvSchemaAlloc_represents (kvDbAlloc_represents hashFn conn) condition
  · exact Function.update_self ..
  · apply unshadowed_of_forall
    intro pair member _
    simp only [metaStart, kvSchemaAlloc_schemaCtx] at member
    rcases mem_dictPut member with member | rfl
    · simp [nothing] at member
    · rfl
  · exact dictCreate_valid (by decide) cacheHash
  · simp [metaStart, entries, Chain.total, dictCreate, dictInit]
  · intro key
    simp [Store.next, blank, metaStart, lookup, dictCreate, dictInit]
  · intro raw present
    simp [Store.next, blank] at present

theorem cache_coherence (removeMissing : Int) (hashFn cacheHash : CString → UInt32) {conn : WiredTiger}
    {metaName : CString}
    (empty : ∀ table, conn.tables (schemaUri metaName) = some table → ∀ raw, table raw = none)
    {history : List (CacheCall × Int)} {s : MetaState}
    (run : Run (guarded (fun s call => CacheCondition removeMissing s call ∧ Roomy s)
      (cacheStep removeMissing metaName)) (metaStart hashFn cacheHash conn metaName) history s) :
    Coherent metaName s ∧ ∀ call, Roomy s →
      (MeetsCoherence removeMissing metaName s call ↔ CacheCondition removeMissing s call) := by
  have valid : ∃ store, CacheValid metaName s conn store := by
    refine run.invariant (fun s => ∃ store, CacheValid metaName s conn store) ?_
      ⟨_, metaStart_valid hashFn cacheHash empty⟩
    rintro s call ret s' ⟨store, valid⟩ ⟨⟨condition, roomy⟩, taken⟩
    obtain ⟨ret', s'', store', returned, valid', _⟩ := cacheCall_valid valid roomy condition
    rw [taken] at returned
    cases returned
    exact ⟨store', valid'⟩
  obtain ⟨store, valid⟩ := valid
  exact ⟨valid.coherent, fun call roomy => meetsCoherence_iff valid roomy call⟩

/-- The 32 bytes of an active schema. -/
def metaRec (kvCount bytes : Nat) : Bytes :=
  leBytes 4 kvCount ++ leBytes 4 0 ++ leBytes 8 bytes ++ leBytes 1 1 ++ leBytes 7 0 ++ leBytes 8 0

abbrev freshMeta : MetaState := metaStart (fun _ => 0) (fun _ => 0) emptyConn sysSchemaMetaTableName

theorem emptyConn_empty (name : CString) :
    ∀ table, emptyConn.tables (schemaUri name) = some table → ∀ raw, table raw = none := by
  intro table present
  cases present

def added (s : MetaState) (key : CString) (val : Bytes) : MetaState where
  cache := (dictPut s.cache key val).2
  db := { s.db with conn := (s.db.conn.insert (schemaUri sysSchemaMetaTableName) key.bytes val).2 }

theorem cache_add_again :
    Run (cacheStep 0 sysSchemaMetaTableName) freshMeta [(.add docs (metaRec 1 0), 0)] (added freshMeta docs (metaRec 1 0)) ∧
      ¬ MeetsCoherence 0 sysSchemaMetaTableName (added freshMeta docs (metaRec 1 0)) (.add docs (metaRec 2 0)) := by
  refine ⟨.single rfl, ?_⟩
  rintro ⟨ret, s', returned, _, unchanged⟩
  have again : cacheCall 0 sysSchemaMetaTableName (added freshMeta docs (metaRec 1 0)) (.add docs (metaRec 2 0)) =
      .ok (-1, ⟨(added freshMeta docs (metaRec 1 0)).cache, (added (added freshMeta docs (metaRec 1 0)) docs (metaRec 2 0)).db⟩) := rfl
  rw [again] at returned
  obtain ⟨rfl, rfl⟩ := Prod.mk.inj (Exec.ok.inj returned)
  have same := congrArg (fun s => s.db.conn.search (schemaUri sysSchemaMetaTableName) docs.bytes)
    (unchanged (by decide))
  revert same
  decide +kernel

theorem cache_coherence_docs :
    Run (guarded (fun s call => CacheCondition 0 s call ∧ Roomy s) (cacheStep 0 sysSchemaMetaTableName)) freshMeta
        [(.add docs (metaRec 1 0), 0)] (added freshMeta docs (metaRec 1 0)) ∧
      Coherent sysSchemaMetaTableName (added freshMeta docs (metaRec 1 0)) ∧
      MeetsCoherence 0 sysSchemaMetaTableName (added freshMeta docs (metaRec 1 0)) (.add entriesName (metaRec 2 0)) := by
  have unshadowed : Unshadowed freshMeta.cache docs :=
    unshadowed_of_forall (by simp [metaStart, dictCreate, dictInit])
  have roomy : Roomy freshMeta := by
    simp [Roomy, entries, Chain.total, metaStart, dictCreate, dictInit]
  have run : Run (guarded (fun s call => CacheCondition 0 s call ∧ Roomy s) (cacheStep 0 sysSchemaMetaTableName))
      freshMeta [(.add docs (metaRec 1 0), 0)] (added freshMeta docs (metaRec 1 0)) :=
    .single ⟨⟨.inr ⟨rfl, unshadowed⟩, roomy⟩, rfl⟩
  obtain ⟨coherent, meets⟩ :=
    cache_coherence 0 (fun _ => 0) (fun _ => 0) (emptyConn_empty sysSchemaMetaTableName) run
  have room : Roomy (added freshMeta docs (metaRec 1 0)) := by
    have valid := metaStart_valid (fun _ => 0) (fun _ => 0) (emptyConn_empty sysSchemaMetaTableName)
    have grown : entries (added freshMeta docs (metaRec 1 0)).cache ≤ entries freshMeta.cache + 1 :=
      entries_dictPut_le valid.table docs (metaRec 1 0)
    have empty : entries freshMeta.cache = 0 := by
      simp [entries, Chain.total, metaStart, dictCreate, dictInit]
    rw [empty] at grown
    unfold Roomy
    omega
  refine ⟨run, coherent, (meets (.add entriesName (metaRec 2 0)) room).mpr (.inr ⟨by decide +kernel, ?_⟩)⟩
  exact unshadowed_of_forall (by decide +kernel)

end SampleFs.Proof.KvDb

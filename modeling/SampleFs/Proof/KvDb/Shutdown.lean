import SampleFs.Metaserver.Shutdown
import SampleFs.Proof.Dict.Representation
import SampleFs.Proof.KvDb.Registry

namespace SampleFs.Proof.KvDb
open Lib Metaserver Dict

/-- The nodes from `head` on, and their keys, hold the pairs of a chain. -/
def ChainAt (m : DictMemory Handle) : Option Nat → List (DictDataPair Handle) → Prop
  | head, [] => head = none
  | head, pair :: rest => ∃ dp cell, head = some dp ∧ m.pairs.cell dp = some cell ∧
      m.keys.cell cell.content.key = some pair.key ∧ cell.content.val = pair.val ∧ ChainAt m cell.next rest

/-- A store in memory: the chains of its registry, their counters and its live schemas. -/
structure Stores (m : DbMemory) (db : KvDb) : Prop where
  maxCount : m.2.maxCount = db.schemaCtx.maxCount
  count : m.2.count = db.schemaCtx.count
  memberCount : m.2.memberCount = db.schemaCtx.memberCount
  hashFn : m.2.hashFn = db.schemaCtx.hashFn
  chains : ∀ i, i < m.2.maxCount → ChainAt m.2 (m.2.members i) (db.schemaCtx.members i)
  schemas : m.1.schemas = db.schemas
  untouched : m.1.destroyed = []

def registeredHandles (db : KvDb) : List Handle := (table db.schemaCtx).map DictDataPair.val

/-- The shutdown comes to its end, so nothing is read or freed after it has been freed. -/
def Orderly (db : KvDb) (m : DbMemory) : Prop :=
  ∃ m', Exec.Returns (kvDbDestroy m) m' ∧ m'.1.destroyed.Perm ((registeredHandles db).map .handle) ∧
    m'.2.count = 0 ∧ ∀ i, i < m'.2.maxCount → m'.2.memberCount i = 0

-- The node has 8 bytes left behind the slot, and `ctx` stands 16 bytes into a schema.
theorem kvSchemaFreeCb_faults {m : DbMemory} {dp : Nat} {cell : Cell (DataPair Handle)}
    (there : m.2.pairs.cell dp = some cell) (fuel : Nat) : kvSchemaFreeCb fuel dp m = .fail .outOfBounds := by
  have outside : ¬ kvSchemaCtxOffset + 8 ≤ (SchemaPtr.slot dp).room := show ¬ 24 ≤ 8 by decide
  simp [kvSchemaFreeCb, kvSchemaDestroyInMemory, SchemaPtr.readBlock, Heap.load_eq there, Exec.check_neg _ outside]

section
variable {schemas : SchemaHeap} {registry : DictMemory Handle} {fuel : Nat}

theorem deinitPass_faults {dp : Nat} {cell : Cell (DataPair Handle)} {key : CString}
    (there : registry.pairs.cell dp = some cell) (named : registry.keys.cell cell.content.key = some key) (index : Nat) :
    DictMemory.deinitPass (kvSchemaFreeCb fuel) index ⟨schemas, registry, some dp⟩ = .fail .outOfBounds := by
  have slot (keys : Heap CString) :
      kvSchemaFreeCb fuel dp (schemas, { registry with keys := keys }) = .fail .outOfBounds :=
    kvSchemaFreeCb_faults there fuel
  simp [DictMemory.deinitPass, Heap.load_eq there, Heap.free_eq named, slot]

theorem deinit_stops {head : Option Nat} {pair : DictDataPair Handle} {rest : List (DictDataPair Handle)}
    (chain : ChainAt registry head (pair :: rest)) (index : Nat) (m' : DbMemory) :
    Exec.loop (DictMemory.deinitPass (kvSchemaFreeCb fuel) index) fuel ⟨schemas, registry, head⟩ ≠ .ok m' := by
  obtain ⟨dp, cell, rfl, there, named, _, _⟩ := chain
  exact Exec.loop_fails (deinitPass_faults there named index) fuel m'

-- Buckets without members are passed over, so the walk comes to the first one that has some.
theorem buckets_stop {m' : DbMemory} {indices : List Nat} (stops : ∀ i ∈ indices, 0 < registry.memberCount i → ∀ m',
      Exec.loop (DictMemory.deinitPass (kvSchemaFreeCb fuel) i) fuel ⟨schemas, registry, registry.members i⟩ ≠ .ok m')
    (filled : ∃ i ∈ indices, 0 < registry.memberCount i) :
    indices.foldlM (DictMemory.deinitBucket (kvSchemaFreeCb fuel) fuel) (schemas, registry) ≠ .ok m' := by
  apply Exec.foldlM_stuck
  · intro i member
    by_cases here : 0 < registry.memberCount i
    · right
      rw [DictMemory.deinitBucket, if_pos here]
      exact stops i member here
    · left
      rw [DictMemory.deinitBucket, if_neg here]
      rfl
  · obtain ⟨i, member, some⟩ := filled
    refine ⟨i, member, ?_⟩
    rw [DictMemory.deinitBucket, if_pos some]
    exact stops i member some

theorem buckets_pass {indices : List Nat} (empty : ∀ i ∈ indices, registry.memberCount i = 0) :
    indices.foldlM (DictMemory.deinitBucket (kvSchemaFreeCb fuel) fuel) (schemas, registry) =
      .ok (schemas, registry) := by
  apply Exec.foldlM_stays
  intro i member
  rw [DictMemory.deinitBucket, empty i member, if_neg (Nat.lt_irrefl 0)]
  rfl

end

theorem registeredHandles_eq_nil {db : KvDb} :
    registeredHandles db = [] ↔ ∀ i, i < db.schemaCtx.maxCount → db.schemaCtx.members i = [] := by
  simp [registeredHandles, table, List.flatMap_eq_nil_iff]

theorem not_orderly {db : KvDb} {m : DbMemory} (valid : RegistryValid db) (stores : Stores m db)
    (filled : registeredHandles db ≠ []) : ¬ Orderly db m := by
  rintro ⟨m', ⟨fuel, returned⟩, _⟩
  have counted (i : Nat) : m.2.memberCount i = (db.schemaCtx.members i).length := by
    rw [stores.memberCount, valid.table.counted]
  apply buckets_stop ?_ ?_ returned
  · intro i member some m'
    obtain ⟨pair, rest, chain⟩ := List.exists_cons_of_length_pos (counted i ▸ some)
    have stored := stores.chains i (List.mem_range.mp member)
    rw [chain] at stored
    exact deinit_stops stored i m'
  · rw [Ne, registeredHandles_eq_nil] at filled
    push Not at filled
    obtain ⟨i, inside, some⟩ := filled
    refine ⟨i, List.mem_range.mpr (stores.maxCount ▸ inside), ?_⟩
    rw [counted]
    exact List.length_pos_iff.mpr some

theorem kv_db_shutdown {db : KvDb} {m : DbMemory} (valid : RegistryValid db) (stores : Stores m db) :
    Orderly db m ↔ registeredHandles db = [] := by
  constructor
  · intro orderly
    by_contra filled
    exact not_orderly valid stores filled orderly
  · intro none
    have empty := registeredHandles_eq_nil.mp none
    have uncounted (i : Nat) (inside : i < m.2.maxCount) : m.2.memberCount i = 0 := by
      rw [stores.memberCount, valid.table.counted, empty i (stores.maxCount ▸ inside)]
      rfl
    refine ⟨m, ⟨0, buckets_pass fun i member => uncounted i (List.mem_range.mp member)⟩, ?_, ?_, uncounted⟩
    · rw [stores.untouched, none]
      exact List.Perm.refl _
    · rw [stores.count, valid.table.total, entries, Chain.total]
      apply Finset.sum_eq_zero
      intro i member
      rw [empty i (Finset.mem_range.mp member)]
      rfl

abbrev docsDb : KvDb := (kvSchemaAlloc freshDb docs false).2

theorem docsDb_members :
    docsDb.schemaCtx.members = Function.update (fun _ => []) (dictIndex freshDb.schemaCtx docs) [⟨docs, 0⟩] := rfl

theorem docsDb_valid : RegistryValid docsDb :=
  kvSchemaAlloc_registryValid (kvDbAlloc_registryValid _ _) docs false (by decide +kernel)

-- one node at address 0, with its key in the block 0
def docsMemory : DbMemory where
  fst := ⟨docsDb.schemas, []⟩
  snd :=
    { pairs := ⟨Function.update (fun _ => none) 0 (some ⟨none, 0, 0⟩), 1⟩
      keys := ⟨Function.update (fun _ => none) 0 (some docs), 1⟩
      maxCount := docsDb.schemaCtx.maxCount
      count := docsDb.schemaCtx.count
      memberCount := docsDb.schemaCtx.memberCount
      members := Function.update (fun _ => none) (dictIndex freshDb.schemaCtx docs) (some 0)
      hashFn := docsDb.schemaCtx.hashFn }

theorem docsMemory_stores : Stores docsMemory docsDb := by
  refine ⟨rfl, rfl, rfl, rfl, ?_, rfl, rfl⟩
  intro i _
  rw [docsDb_members]
  by_cases here : i = dictIndex freshDb.schemaCtx docs
  · have head : docsMemory.2.members i = some 0 := by simp [docsMemory, here]
    rw [head, here, Function.update_self]
    exact ⟨0, ⟨none, 0, 0⟩, rfl, rfl, rfl, rfl, rfl⟩
  · have head : docsMemory.2.members i = none := by simp [docsMemory, here]
    rw [head, Function.update_of_ne here]
    rfl

theorem kv_db_shutdown_docs : RegistryValid docsDb ∧ Stores docsMemory docsDb ∧ 0 ∈ registeredHandles docsDb ∧
    ¬ Orderly docsDb docsMemory := by
  have registered : 0 ∈ registeredHandles docsDb := by
    refine List.mem_map.mpr ⟨⟨docs, 0⟩, ?_, rfl⟩
    refine List.mem_flatMap.mpr ⟨dictIndex freshDb.schemaCtx docs, ?_, ?_⟩
    · exact List.mem_range.mpr (dictIndex_lt freshDb.schemaCtx docs (by decide))
    · rw [docsDb_members, Function.update_self]
      exact List.mem_singleton_self _
  refine ⟨docsDb_valid, docsMemory_stores, registered, not_orderly docsDb_valid docsMemory_stores ?_⟩
  intro none
  rw [none] at registered
  cases registered

def freshMemory : DbMemory := (⟨freshDb.schemas, []⟩, .dictCreate schemaLimit freshDb.schemaCtx.hashFn)

theorem kv_db_shutdown_fresh : Stores freshMemory freshDb ∧ Orderly freshDb freshMemory := by
  have stores : Stores freshMemory freshDb := ⟨rfl, rfl, rfl, rfl, fun _ _ => rfl, rfl, rfl⟩
  refine ⟨stores, (kv_db_shutdown (kvDbAlloc_registryValid _ _) stores).mpr ?_⟩
  exact registeredHandles_eq_nil.mpr fun _ _ => rfl

end SampleFs.Proof.KvDb

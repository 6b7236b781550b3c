import SampleFs.Proof.KvDb.MetaCache
import SampleFs.Proof.KvDb.Search

namespace SampleFs.Proof.KvDb
open Lib Metaserver Dict

/-- A table of records under schema names, and the list of them that a cursor comes to. -/
structure MetaTable (scan : Table → List Record) (table : Table) : Prop where
  names : ∀ key val, table key = some val → 0 ∉ key
  listed : ∀ key val, (key, val) ∈ scan table ↔ table key = some val
  ordered : (scan table).Pairwise fun a b => a.1 < b.1

section
variable (bitmapAlloc : Nat → Option Nat) (scan : Table → List Record)

/-- The cached record is the stored one with a bitmap of its own. -/
def Reloaded (val : Metaserver.Bytes) (cached : SchemaMetaRec) : Prop :=
  ∃ stored n address, storedRec val = .ok stored ∧ bitmapAlloc n = some address ∧
    cached = { stored with bitmap := some address }

/-- The cache has the names of the table and no others, and the schemas are registered. -/
structure Reloads (table : Table) (s : CacheLoad) : Prop where
  cached : ∀ (name : CString) val, table name.bytes = some val →
    ∃ entry, dictGet s.cache name = some entry ∧ Reloaded bitmapAlloc val entry
  others : ∀ name : CString, table name.bytes = none → dictGet s.cache name = none
  registered : ∀ (name : CString) val, table name.bytes = some val → (kvDbFetchSchema s.db name).isSome

def CacheReloads (db : KvDb) (table : Table) : Prop :=
  ∃ ret s, schemaCacheLoad bitmapAlloc scan sysSchemaMetaTableName db = .ok (ret, s) ∧ Reloads bitmapAlloc table s

end

/-! ## Every cached record has lost its bitmap -/

theorem search_keeps {σ : Type} {cb : σ → Metaserver.Bytes → Metaserver.Bytes → Int × σ} {inv : σ → Prop}
    (keeps : ∀ ctx key val, inv ctx → inv (cb ctx key val).2) {dst : Option Metaserver.Bytes} {size : Nat}
    {items : List CursorItem} {s : SearchState σ} {out : SearchOutcome σ} (start : inv s.ctx)
    (returns : kvSchmeaSearch cb dst size items s = .ok out) : inv out.state.ctx := by
  induction items generalizing s with
  | nil =>
      cases returns
      exact start
  | cons item rest ih =>
      rw [kvSchmeaSearch] at returns
      by_cases failed : item.getKey ≠ 0
      · rw [if_pos failed] at returns
        cases returns
        exact start
      · rw [if_neg failed] at returns
        obtain ⟨differs, _, goes⟩ := Exec.bind_eq_ok.mp returns
        have kept : inv (s.call cb item.key item.val).2.ctx := keeps s.ctx item.key item.val start
        cases differs with
        | true =>
            cases goes
            exact kept
        | false => exact ih kept goes

theorem dictGet_mem {V : Type} {d : Dict V} {key : CString} {val : V} (gets : dictGet d key = some val) :
    ∃ pair ∈ d.members (dictIndex d key), pair.val = val := by
  obtain ⟨found, stops, rfl⟩ := Option.map_eq_some_iff.mp gets
  unfold dictFind at stops
  split at stops
  next =>
    have split := (Chain.search_eq_some.mp stops).1
    exact ⟨found.here, by rw [split]; simp, rfl⟩
  next => cases stops

def Cleared (s : Exec Fault CacheLoad) : Prop :=
  ∀ load, s = .ok load → ∀ i, ∀ pair ∈ load.cache.members i, pair.val.bitmap = none

section
variable {bitmapAlloc : Nat → Option Nat} {scan : Table → List Record} {db : KvDb} {table : Table} {schema : KvSchema}

theorem loadCb_cleared (s : Exec Fault CacheLoad) (key val : Metaserver.Bytes) (cleared : Cleared s) :
    Cleared (loadCb bitmapAlloc s key val).2 := by
  unfold loadCb
  cases called : (s >>= fun s => schemaCacheLoadCb bitmapAlloc s key) with
  | fail fault =>
      intro load same
      cases same
  | timeout =>
      intro load same
      cases same
  | ok result =>
      obtain ⟨before, rfl, calls⟩ := Exec.bind_eq_ok.mp called
      obtain ⟨fetched, _, rest⟩ := Exec.bind_eq_ok.mp calls
      intro load same i pair member
      cases fetched with
      | none => cases rest
      | some stored =>
          obtain ⟨prevMeta, _, rest⟩ := Exec.bind_eq_ok.mp rest
          cases rest
          cases same
          rcases mem_dictPut member with old | rfl
          · exact cleared before rfl i pair old
          · rfl

theorem load_cleared {ret : Int} {s : CacheLoad}
    (loads : schemaCacheLoad bitmapAlloc scan sysSchemaMetaTableName db = .ok (ret, s)) {name : CString}
    {entry : SchemaMetaRec} (gets : dictGet s.cache name = some entry) : entry.bitmap = none := by
  obtain ⟨named, _, rest⟩ := Exec.bind_eq_ok.mp loads
  cases named with
  | none => cases rest
  | some schema =>
      simp only at rest
      cases opened : db.conn.tables schema.uri with
      | none =>
          rw [opened] at rest
          cases rest
      | some table =>
          rw [opened] at rest
          obtain ⟨out, searches, rest⟩ := Exec.bind_eq_ok.mp rest
          obtain ⟨load, ends, same⟩ := Exec.bind_eq_ok.mp rest
          cases same
          obtain ⟨pair, member, rfl⟩ := dictGet_mem gets
          refine search_keeps loadCb_cleared ?_ searches s ends _ pair member
          intro load same i pair member
          cases same
          cases member

theorem load_empty (named : schemaNamed db sysSchemaMetaTableName = .ok (some schema))
    (opened : db.conn.tables schema.uri = some table) (empty : scan table = []) :
    schemaCacheLoad bitmapAlloc scan sysSchemaMetaTableName db =
      .ok (0, ⟨db, dictCreate schemaMaxSize dictDefaultHashFn, 0⟩) := by
  simp only [schemaCacheLoad, named, Exec.ok_bind, opened, empty]
  rfl

theorem cache_reload (named : schemaNamed db sysSchemaMetaTableName = .ok (some schema))
    (opened : db.conn.tables schema.uri = some table) (content : MetaTable scan table) :
    CacheReloads bitmapAlloc scan db table ↔ ∀ key, table key = none := by
  constructor
  · rintro ⟨ret, s, loads, reloads⟩ key
    cases stored : table key with
    | none => rfl
    | some val =>
        obtain ⟨entry, gets, _, _, _, _, _, rfl⟩ := reloads.cached ⟨key, content.names key val stored⟩ val stored
        cases load_cleared loads gets
  · intro empty
    have nothing : scan table = [] := by
      refine List.eq_nil_iff_forall_not_mem.mpr fun record member => ?_
      have stored := (content.listed record.1 record.2).mp member
      rw [empty] at stored
      cases stored
    refine ⟨_, _, load_empty named opened nothing, ?_, ?_, ?_⟩
    · intro name val stored
      rw [empty] at stored
      cases stored
    · intro name _
      rfl
    · intro name val stored
      rw [empty] at stored
      cases stored

end

theorem freshMeta_named :
    schemaNamed freshMeta.db sysSchemaMetaTableName = .ok (some ⟨schemaUri sysSchemaMetaTableName, sysSchemaMetaTableName⟩) := by
  have valid := metaStart_valid (fun _ => 0) (fun _ => 0) (emptyConn_empty sysSchemaMetaTableName)
  rw [schemaNamed_eq valid.represents valid.findable, if_pos valid.allocated]

theorem cache_reload_none : ∃ table, freshMeta.db.conn.tables (schemaUri sysSchemaMetaTableName) = some table ∧
    CacheReloads (fun n => some (n + 100)) (fun _ => []) freshMeta.db table := by
  have opened : freshMeta.db.conn.tables (schemaUri sysSchemaMetaTableName) = some fun _ => none := rfl
  have content : MetaTable (fun _ => []) fun _ => none := ⟨by simp, by simp, .nil⟩
  exact ⟨_, opened, (cache_reload freshMeta_named opened content).mpr fun _ => rfl⟩

/-! ## A schema of five records and nine bytes -/

def docsRec : Metaserver.Bytes := metaRec 5 9

def docsMeta : KvDb :=
  { freshMeta.db with conn := (freshMeta.db.conn.insert (schemaUri sysSchemaMetaTableName) docs.bytes docsRec).2 }

def docsTable : Table := Function.update (fun _ => none) docs.bytes (some docsRec)

theorem docsTable_content : MetaTable (fun _ => [(docs.bytes, docsRec)]) docsTable where
  names := by
    intro key val stored
    by_cases same : key = docs.bytes
    · rw [same]
      exact docs.noNul
    · rw [docsTable, Function.update_of_ne same] at stored
      cases stored
  listed := by
    intro key val
    by_cases same : key = docs.bytes
    · rw [same, docsTable, Function.update_self]
      simp [eq_comm]
    · rw [docsTable, Function.update_of_ne same]
      simp [same]
  ordered := List.pairwise_singleton ..

/-- The record is cached with its fields and without its bitmap. -/
theorem cache_reload_docs :
    docsMeta.conn.tables (schemaUri sysSchemaMetaTableName) = some docsTable ∧
      MetaTable (fun _ => [(docs.bytes, docsRec)]) docsTable ∧
      (∃ ret s, schemaCacheLoad (fun n => some (n + 100)) (fun _ => [(docs.bytes, docsRec)])
          sysSchemaMetaTableName docsMeta = .ok (ret, s) ∧ dictGet s.cache docs = some ⟨5, 9, true, none⟩) ∧
      ¬ CacheReloads (fun n => some (n + 100)) (fun _ => [(docs.bytes, docsRec)]) docsMeta docsTable := by
  have opened : docsMeta.conn.tables (schemaUri sysSchemaMetaTableName) = some docsTable := rfl
  have cached : (schemaCacheLoad (fun n => some (n + 100)) (fun _ => [(docs.bytes, docsRec)])
      sysSchemaMetaTableName docsMeta >>= fun out => .ok (dictGet out.2.cache docs)) =
        .ok (some ⟨5, 9, true, none⟩) := by
    decide +kernel
  obtain ⟨⟨ret, s⟩, loads, gets⟩ := Exec.bind_eq_ok.mp cached
  refine ⟨opened, docsTable_content, ⟨ret, s, loads, Exec.ok.inj gets⟩, ?_⟩
  rintro ⟨ret', s', loads', reloads⟩
  have stored : docsTable docs.bytes = some docsRec := Function.update_self ..
  obtain ⟨entry, found, _, _, _, _, _, rfl⟩ := reloads.cached docs docsRec stored
  cases load_cleared loads' found

end SampleFs.Proof.KvDb

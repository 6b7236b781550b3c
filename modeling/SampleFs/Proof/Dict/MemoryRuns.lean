import SampleFs.Proof.Dict.Disposal
import SampleFs.Proof.Dict.Memory

namespace SampleFs.Proof.Dict
open Lib Metaserver LinkedList

variable {V : Type}

/-! ## Runs of calls -/

theorem call_laid {m : DictMemory V} {d : Dict V} {chains : Nat → List (Entry V)} (laid : Laid m d chains)
    (valid : Valid d) (call : DictCall V) :
    ∃ m' chains', Exec.Returns (fun fuel => m.call fuel call) ((dictCall d call).1, m') ∧
      Laid m' (dictCall d call).2 chains' := by
  cases call with
  | put key val => exact call_put laid valid key val
  | get key => exact ⟨m, chains, call_get laid valid key, laid⟩
  | del key => exact call_del laid valid key

theorem dictFind_growing (m : DictMemory V) (key : CString) : Exec.Growing (m.dictFind key) := by
  apply Exec.Growing.ite
  · exact fun _ _ le => Exec.loop_below (fun _ => .refl _) le _
  · exact .const _

theorem call_growing (m : DictMemory V) (call : DictCall V) : Exec.Growing fun fuel => m.call fuel call := by
  cases call with
  | put key val =>
      apply Exec.Growing.bind
      · exact (dictFind_growing m key).bind fun _ => .const _
      · exact fun _ => .const _
  | get key =>
      apply Exec.Growing.bind
      · exact (dictFind_growing m key).bind fun _ => .const _
      · exact fun _ => .const _
  | del key =>
      apply Exec.Growing.bind
      · exact (dictFind_growing m key).bind fun _ => .const _
      · exact fun _ => .const _

theorem serve_growing (m : DictMemory V) (calls : List (DictCall V)) :
    Exec.Growing fun fuel => DictMemory.serve fuel m calls := by
  induction calls generalizing m with
  | nil => exact .const _
  | cons call rest ih =>
      apply Exec.Growing.bind (call_growing m call)
      intro answer
      exact (ih answer.2).bind fun _ => .const _

theorem serve_laid {m : DictMemory V} {d d' : Dict V} {chains : Nat → List (Entry V)}
    {history : List (DictCall V × DictReply V)} (laid : Laid m d chains) (valid : Valid d)
    (run : Run dictStep d history d') :
    ∃ m' chains', Exec.Returns (fun fuel => DictMemory.serve fuel m (history.map Prod.fst)) (history.map Prod.snd, m') ∧
      Laid m' d' chains' := by
  induction run generalizing m chains with
  | nil d => exact ⟨m, chains, ⟨0, rfl⟩, laid⟩
  | cons step _ ih =>
      obtain ⟨next, chains', first, laid⟩ := call_laid laid valid _
      have valid := dictStep_valid valid step
      rw [step.1] at first laid
      obtain ⟨final, chains'', later, laid⟩ := ih laid valid
      obtain ⟨enough, answers⟩ := first.of_le (call_growing m _)
      obtain ⟨enough', serves⟩ := later.of_le (serve_growing next _)
      refine ⟨final, chains'', ⟨max enough enough', ?_⟩, laid⟩
      simp [DictMemory.serve, answers _ (Nat.le_max_left ..), serves _ (Nat.le_max_right ..)]

/-! ## Showing the table -/

def Entry.visit (entry : Entry V) : DictMemory.Visit := ⟨entry.name, entry.node⟩

def DictMemory.shows (m : DictMemory V) (visit : DictMemory.Visit) : Option (DictDataPair V) := do
  let key ← m.keys.cell visit.key
  let cell ← m.pairs.cell visit.data
  return ⟨key, cell.content.val⟩

def visits (size : Nat) (chains : Nat → List (Entry V)) : List DictMemory.Visit :=
  (List.range size).flatMap fun i => (chains i).map Entry.visit

section Walks
variable {m : DictMemory V} {d : Dict V} {chains : Nat → List (Entry V)}

theorem Laid.counted (laid : Laid m d chains) (valid : Valid d) {i : Nat} (inside : i < d.maxCount) :
    m.memberCount i = (chains i).length := by
  rw [laid.memberCount, valid.counted, ← laid.pairs i inside, List.length_map]

theorem dumpBucket_returns (laid : Laid m d chains) (valid : Valid d) {i : Nat} (inside : i < d.maxCount)
    (shown : List DictMemory.Visit) :
    Exec.Returns (fun fuel => m.dumpBucket fuel shown i) (shown ++ (chains i).map Entry.visit) := by
  have counted := laid.counted valid inside
  cases chain : chains i with
  | nil =>
      refine ⟨0, ?_⟩
      rw [chain] at counted
      simp [DictMemory.dumpBucket, counted]
  | cons entry rest =>
      rw [chain] at counted
      have runs := returns_search m.dumpPass (fun _ => false)
        (fun before after => ⟨shown ++ before.map Entry.visit, head Entry.node after⟩)
        (fun before _ => shown ++ before.map Entry.visit) ?_ rfl (show chains i = [] ++ chains i from rfl)
      · have none : Chain.search (fun _ => false) (chains i) = none := Chain.search_eq_none.mpr fun _ _ => rfl
        rw [none] at runs
        simpa [DictMemory.dumpBucket, counted, laid.members i inside, chain] using runs
      · intro before entry after split
        have linked := laid.stored.linked i inside
        rw [split] at linked
        simp [DictMemory.dumpPass, Heap.load_eq linked.here, Entry.visit]

theorem dictDump_returns (laid : Laid m d chains) (valid : Valid d) :
    Exec.Returns m.dictDump (visits d.maxCount chains) := by
  have grows (shown) (i) : Exec.Growing fun fuel => m.dumpBucket fuel shown i := by
    apply Exec.Growing.ite
    · exact fun _ _ le => Exec.loop_below (fun _ => .refl _) le _
    · exact .const _
  have step (before i after shown) (split : List.range d.maxCount = before ++ i :: after)
      (kept : shown = before.flatMap fun i => (chains i).map Entry.visit) :
      ∃ next, Exec.Returns (fun fuel => m.dumpBucket fuel shown i) next ∧
        next = (before ++ [i]).flatMap fun i => (chains i).map Entry.visit := by
    have inside : i < d.maxCount := by
      rw [← List.mem_range, split]
      simp
    refine ⟨_, dumpBucket_returns laid valid inside shown, ?_⟩
    rw [kept, List.flatMap_append, List.flatMap_singleton]
  obtain ⟨result, returns, rfl⟩ := Exec.returns_foldlM grows _ (List.range d.maxCount) [] rfl step
  unfold DictMemory.dictDump
  rw [laid.maxCount]
  exact returns

theorem shows_visits (laid : Laid m d chains) :
    (visits d.maxCount chains).map (DictMemory.shows m) = (table d).map some := by
  rw [visits, table, List.map_flatMap, List.map_flatMap]
  apply List.flatMap_congr
  intro i member
  have inside := List.mem_range.mp member
  rw [← laid.pairs i inside, List.map_map, List.map_map]
  apply List.map_congr_left
  intro entry there
  obtain ⟨before, after, split⟩ := List.append_of_mem there
  have linked := laid.stored.linked i inside
  rw [split] at linked
  simp [DictMemory.shows, Entry.visit, laid.stored.named i inside entry there, linked.here]

end Walks

/-! ## Tearing the table down -/

/-- The chains with their counters. Where they start is not said: `dict_deinit` leaves `members` as it is. -/
structure Counted (m : DictMemory V) (size : Nat) (chains : Nat → List (Entry V)) : Prop where
  stored : Stored m.pairs m.keys size chains
  memberCount : ∀ i < size, m.memberCount i = (chains i).length
  count : m.count = Chain.total size chains

section Teardown
variable {size : Nat} {chains : Nat → List (Entry V)} {i : Nat} {entry : Entry V} {after : List (Entry V)}

def withoutEntry (m : DictMemory V) (i : Nat) (entry : Entry V) : DictMemory V :=
  { m with
    pairs := ⟨Function.update m.pairs.cell entry.node none, m.pairs.next⟩
    keys := ⟨Function.update m.keys.cell entry.name none, m.keys.next⟩ }.countDown i

theorem Counted.withoutEntry {m : DictMemory V} (counted : Counted m size chains) (inside : i < size)
    (first : chains i = entry :: after) :
    Counted (withoutEntry m i entry) size (Function.update chains i after) where
  stored := by
    have split : chains i = [] ++ entry :: after := first
    apply Stored.remove inside split _ counted.stored.named counted.stored.nodes counted.stored.names
    intro j there
    by_cases same : j = i
    · subst same
      have linked := counted.stored.linked j there
      rw [first] at linked
      rw [Function.update_self]
      exact linked.2
    · rw [Function.update_of_ne same]
      exact counted.stored.linked j there
  memberCount := by
    intro j there
    by_cases same : j = i
    · subst same
      rw [Function.update_self]
      refine (Function.update_self ..).trans ?_
      rw [counted.memberCount j there, first, List.length_cons, subOne_eq]
    · rw [Function.update_of_ne same]
      exact (Function.update_of_ne same _ _).trans (counted.memberCount j there)
  count := by
    have shrunk := Chain.total_update chains inside after
    rw [first, List.length_cons] at shrunk
    have one : Chain.total size chains = Chain.total size (Function.update chains i after) + 1 := by omega
    refine (congrArg subOne counted.count).trans ?_
    rw [one, subOne_eq]

theorem deinitPass_entry {m : DictMemory V} (counted : Counted m size chains) (inside : i < size)
    (first : chains i = entry :: after) (handed : List Nat) :
    DictMemory.deinitPass DictMemory.keepSlot i ⟨handed, m, some entry.node⟩ =
      .ok (.again ⟨handed ++ [entry.node], withoutEntry m i entry, head Entry.node after⟩) := by
  have linked := counted.stored.linked i inside
  rw [first] at linked
  have named := counted.stored.named i inside entry (by simp [first])
  simp [DictMemory.deinitPass, DictMemory.keepSlot, Heap.load_eq linked.1, Heap.free_eq linked.1, Heap.free_eq named,
    withoutEntry]

/-- `dict_deinit` in the middle of a chain. -/
structure Partway (m : DictMemory V) (size : Nat) (chains : Nat → List (Entry V)) (i : Nat) (handed : List Nat)
    (before after : List (Entry V)) (s : DictMemory.DeinitState (List Nat) V) : Prop where
  split : chains i = before ++ after
  cur : s.cur = head Entry.node after
  handed : s.context = handed ++ before.map Entry.node
  counted : Counted s.memory size (Function.update chains i after)
  members : s.memory.members = m.members

structure Emptied (m : DictMemory V) (size : Nat) (chains : Nat → List (Entry V)) (i : Nat) (handed : List Nat)
    (state : List Nat × DictMemory V) : Prop where
  handed : state.1 = handed ++ (chains i).map Entry.node
  counted : Counted state.2 size (Function.update chains i [])
  members : state.2.members = m.members

theorem Partway.pass {m : DictMemory V} {handed : List Nat} {before : List (Entry V)}
    {s : DictMemory.DeinitState (List Nat) V} (inside : i < size) (partway : Partway m size chains i handed before (entry :: after) s) :
    ∃ next, DictMemory.deinitPass DictMemory.keepSlot i s = .ok (.again next) ∧
      Partway m size chains i handed (before ++ [entry]) after next := by
  obtain ⟨given, memory, cur⟩ := s
  obtain ⟨split, rfl, rfl, counted, same⟩ := partway
  have first : Function.update chains i (entry :: after) i = entry :: after := Function.update_self ..
  have next := counted.withoutEntry inside first
  rw [Function.update_idem] at next
  exact ⟨_, deinitPass_entry counted inside first _, by simp [split], rfl, by simp, next, same⟩

theorem Partway.ends {m : DictMemory V} {handed : List Nat} {before : List (Entry V)}
    {s : DictMemory.DeinitState (List Nat) V} (partway : Partway m size chains i handed before [] s) :
    ∃ state, DictMemory.deinitPass DictMemory.keepSlot i s = .ok (.done state) ∧ Emptied m size chains i handed state := by
  obtain ⟨given, memory, cur⟩ := s
  obtain ⟨split, rfl, rfl, counted, same⟩ := partway
  rw [List.append_nil] at split
  exact ⟨_, rfl, by rw [split], counted, same⟩

theorem deinitBucket_returns {m : DictMemory V} (counted : Counted m size chains) (inside : i < size)
    (start : m.members i = head Entry.node (chains i)) (handed : List Nat) :
    ∃ state, Exec.Returns (fun fuel => DictMemory.deinitBucket DictMemory.keepSlot fuel (handed, m) i) state ∧
      Emptied m size chains i handed state := by
  by_cases filled : 0 < m.memberCount i
  · have begins : Partway m size chains i handed [] (chains i) ⟨handed, m, m.members i⟩ :=
      ⟨rfl, start, (List.append_nil _).symm, by rwa [Function.update_eq_self], rfl⟩
    have walk := returns_walk (DictMemory.deinitPass DictMemory.keepSlot i) (Partway m size chains i handed)
      (Emptied m size chains i handed) (fun _ _ _ _ => Partway.pass inside) (fun _ _ => Partway.ends) begins
    simpa [DictMemory.deinitBucket, filled] using walk
  · have empty : chains i = [] := by
      rw [counted.memberCount i inside] at filled
      exact List.eq_nil_of_length_eq_zero (Nat.eq_zero_of_not_pos filled)
    refine ⟨(handed, m), ⟨0, if_neg filled⟩, by simp [empty], ?_, rfl⟩
    rwa [← empty, Function.update_eq_self]

def beyond (done : List Nat) (chains : Nat → List (Entry V)) (i : Nat) : List (Entry V) :=
  if i ∈ done then [] else chains i

theorem beyond_nil (chains : Nat → List (Entry V)) : beyond [] chains = chains := by
  funext i
  simp [beyond]

theorem beyond_append (done : List Nat) (chains : Nat → List (Entry V)) (i : Nat) :
    beyond (done ++ [i]) chains = Function.update (beyond done chains) i [] := by
  funext j
  by_cases same : j = i
  · simp [beyond, same]
  · simp [beyond, same]

theorem deinitBucket_growing (state : List Nat × DictMemory V) (i : Nat) :
    Exec.Growing fun fuel => DictMemory.deinitBucket DictMemory.keepSlot fuel state i := by
  apply Exec.Growing.ite
  · exact fun _ _ le => Exec.loop_below (fun _ => .refl _) le _
  · exact .const _

theorem deinit_returns {m : DictMemory V} (counted : Counted m size chains)
    (heads : ∀ i < size, m.members i = head Entry.node (chains i)) :
    ∃ m', Exec.Returns (fun fuel => (List.range size).foldlM (DictMemory.deinitBucket DictMemory.keepSlot fuel) ([], m))
        ((List.range size).flatMap (fun i => (chains i).map Entry.node), m') ∧
      Counted m' size (beyond (List.range size) chains) := by
  let inv (done : List Nat) (state : List Nat × DictMemory V) : Prop :=
    state.1 = done.flatMap (fun i => (chains i).map Entry.node) ∧ Counted state.2 size (beyond done chains) ∧
      state.2.members = m.members
  have step (done i rest state) (split : List.range size = done ++ i :: rest) (kept : inv done state) :
      ∃ next, Exec.Returns (fun fuel => DictMemory.deinitBucket DictMemory.keepSlot fuel state i) next ∧ inv (done ++ [i]) next := by
    obtain ⟨handed, memory⟩ := state
    obtain ⟨rfl, counted, same⟩ := kept
    have inside : i < size := by
      rw [← List.mem_range, split]
      simp
    have fresh : i ∉ done := by
      have once := split ▸ List.nodup_range
      intro member
      exact (List.nodup_append.mp once).2.2 i member i (by simp) rfl
    have here : beyond done chains i = chains i := if_neg fresh
    have start : memory.members i = head Entry.node (beyond done chains i) := by
      rw [here, same, heads i inside]
    obtain ⟨next, returns, emptied⟩ := deinitBucket_returns counted inside start _
    refine ⟨next, returns, ?_, ?_, emptied.members.trans same⟩
    · rw [emptied.handed, here, List.flatMap_append, List.flatMap_singleton]
    · rw [beyond_append]
      exact emptied.counted
  obtain ⟨⟨handed, m'⟩, returns, rfl, done, _⟩ := Exec.returns_foldlM deinitBucket_growing inv (List.range size) ([], m)
    ⟨rfl, by rwa [beyond_nil], rfl⟩ step
  exact ⟨m', returns, done⟩

theorem Counted.freed {m : DictMemory V} (counted : Counted m size chains) (empty : ∀ i < size, chains i = []) :
    m.count = 0 ∧ (∀ i < size, m.memberCount i = 0) ∧ ∀ a, m.pairs.cell a = none ∧ m.keys.cell a = none := by
  have nodes := counted.stored.nodes
  have names := counted.stored.names
  rw [blocks_eq_zero empty] at nodes names
  refine ⟨?_, ?_, fun a => ⟨nodes.cell_eq_none a, names.cell_eq_none a⟩⟩
  · rw [counted.count]
    apply Finset.sum_eq_zero
    intro i inside
    rw [empty i (Finset.mem_range.mp inside), List.length_nil]
  · intro i inside
    rw [counted.memberCount i inside, empty i inside, List.length_nil]

end Teardown

/-! ## The table and its memory -/

/-- `dict_dump` shows every pair of the table once, there are no other blocks, and `dict_deinit` frees them all. -/
structure Mirrors (m : DictMemory V) (d : Dict V) (shown : List DictMemory.Visit) : Prop where
  dump : Exec.Returns m.dictDump shown
  pairs : shown.map (DictMemory.shows m) = (table d).map some
  nodes : Ledger m.pairs (shown.map DictMemory.Visit.data)
  names : Ledger m.keys (shown.map DictMemory.Visit.key)
  deinit : ∃ m', Exec.Returns (m.dictDeinit DictMemory.keepSlot []) (shown.map DictMemory.Visit.data, m') ∧ m'.count = 0 ∧
    (∀ i < d.maxCount, m'.memberCount i = 0) ∧ ∀ a, m'.pairs.cell a = none ∧ m'.keys.cell a = none

theorem visits_blocks (place : DictMemory.Visit → Nat) (size : Nat) (chains : Nat → List (Entry V)) :
    ((visits size chains).map place : Multiset Nat) = blocks (place ∘ Entry.visit) size chains := by
  rw [visits, List.map_flatMap, coe_flatMap_range, blocks]
  simp only [List.map_map]

theorem Laid.mirrors {m : DictMemory V} {d : Dict V} {chains : Nat → List (Entry V)} (laid : Laid m d chains)
    (valid : Valid d) : Mirrors m d (visits d.maxCount chains) where
  dump := dictDump_returns laid valid
  pairs := shows_visits laid
  nodes := by
    rw [visits_blocks]
    exact laid.stored.nodes
  names := by
    rw [visits_blocks]
    exact laid.stored.names
  deinit := by
    have counted : Counted m d.maxCount chains := by
      refine ⟨laid.stored, fun i inside => laid.counted valid inside, ?_⟩
      rw [laid.count, valid.total, entries, Chain.total, Chain.total]
      apply Finset.sum_congr rfl
      intro i inside
      rw [← laid.pairs i (Finset.mem_range.mp inside), List.length_map]
    obtain ⟨m', returns, done⟩ := deinit_returns counted laid.members
    refine ⟨m', ?_, done.freed fun i inside => if_pos (List.mem_range.mpr inside)⟩
    unfold DictMemory.dictDeinit
    rw [laid.maxCount, visits, List.map_flatMap]
    simp only [List.map_map]
    exact returns

theorem dict_memory_mirrors {maxCount : Nat} (pos : 0 < maxCount) (hashFn : CString → UInt32)
    {history : List (DictCall V × DictReply V)} {d : Dict V}
    (run : Run dictStep (dictCreate maxCount hashFn) history d) :
    ∃ m shown, Exec.Returns (fun fuel => (DictMemory.dictCreate maxCount hashFn).serve fuel (history.map Prod.fst))
      (history.map Prod.snd, m) ∧ Mirrors m d shown := by
  have valid : Valid d :=
    run.invariant Valid (fun _ _ _ _ => dictStep_valid) (dictCreate_valid pos hashFn)
  obtain ⟨m, chains, serves, laid⟩ := serve_laid (dictCreate_laid maxCount hashFn) (dictCreate_valid pos hashFn) run
  exact ⟨m, _, serves, laid.mirrors valid⟩

-- The deleted key stands behind the other one of the chain.
theorem dict_memory_mirrors_ab : ∃ m shown,
    Exec.Returns (fun fuel => (DictMemory.dictCreate 1 fun _ => 0).serve fuel
        [.put keyA 1, .put keyB 2, .get keyA, .del keyA])
      ([.put (some 1), .put (some 2), .get (some 1), .del 0 (some 1)], m) ∧
      Mirrors m (dictDel twoKeys keyA).2.2 shown := by
  have later : Run dictStep twoKeys [(.get keyA, .get (some 1)), (.del keyA, .del 0 (some 1))]
      (dictDel twoKeys keyA).2.2 :=
    .cons (dictStep_taken twoKeys (.get keyA) (by decide)) (.single (dictStep_taken twoKeys (.del keyA) (by decide)))
  exact dict_memory_mirrors Nat.one_pos (fun _ => 0) (twoKeys_run.append later)

end SampleFs.Proof.Dict

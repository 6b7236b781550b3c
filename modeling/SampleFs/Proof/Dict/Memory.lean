import SampleFs.Metaserver.DictMemory
import SampleFs.Proof.Dict.Representation

/-!
# The table in memory

A `Dict` is laid out as chains of entries, each of which is in two blocks. The operations on the blocks
do to the chains what the operations of `Dict` do, without a fault, and there are no other blocks.
-/

namespace SampleFs.Proof.Dict
open Lib Metaserver LinkedList

variable {V : Type}

structure Entry (V : Type) where
  node : Nat
  name : Nat
  pair : DictDataPair V

def Entry.content (entry : Entry V) : DataPair V := ⟨entry.name, entry.pair.val⟩

@[simp] theorem Entry.content_key (entry : Entry V) : entry.content.key = entry.name := rfl
@[simp] theorem Entry.content_val (entry : Entry V) : entry.content.val = entry.pair.val := rfl

abbrev InCells (pairs : Heap (Cell (DataPair V))) (chain : List (Entry V)) : Prop :=
  Linked Entry.node Entry.content pairs.cell chain

/-- The two heaps hold the entries of the chains and nothing else. -/
structure Stored (pairs : Heap (Cell (DataPair V))) (keys : Heap CString) (size : Nat)
    (chains : Nat → List (Entry V)) : Prop where
  linked : ∀ i < size, InCells pairs (chains i)
  named : ∀ i < size, ∀ entry ∈ chains i, keys.cell entry.name = some entry.pair.key
  nodes : Ledger pairs (blocks Entry.node size chains)
  names : Ledger keys (blocks Entry.name size chains)

structure Laid (m : DictMemory V) (d : Dict V) (chains : Nat → List (Entry V)) : Prop where
  stored : Stored m.pairs m.keys d.maxCount chains
  maxCount : m.maxCount = d.maxCount
  count : m.count = d.count
  memberCount : m.memberCount = d.memberCount
  hashFn : m.hashFn = d.hashFn
  members : ∀ i < d.maxCount, m.members i = head Entry.node (chains i)
  pairs : ∀ i < d.maxCount, (chains i).map Entry.pair = d.members i

theorem dictCreate_laid (maxCount : Nat) (hashFn : CString → UInt32) :
    Laid (DictMemory.dictCreate maxCount hashFn : DictMemory V) (dictCreate maxCount hashFn) fun _ => [] where
  stored := by
    refine ⟨fun _ _ => trivial, ?_, ?_, ?_⟩
    · intro i _ entry member
      cases member
    · rw [blocks_eq_zero fun _ _ => rfl]
      exact Ledger.empty
    · rw [blocks_eq_zero fun _ _ => rfl]
      exact Ledger.empty
  maxCount := rfl
  count := rfl
  memberCount := rfl
  hashFn := rfl
  members := fun _ _ => rfl
  pairs := fun _ _ => rfl

/-! ## The search -/

section Search
variable {m : DictMemory V} {d : Dict V} {chains : Nat → List (Entry V)}

theorem Laid.index (laid : Laid m d chains) (key : CString) : m.dictIndex key = dictIndex d key := by
  rw [DictMemory.dictIndex, laid.hashFn, laid.maxCount]
  rfl

def searchAt (before after : List (Entry V)) : DictMemory.Search :=
  ⟨before.getLast?.map Entry.node, head Entry.node after⟩

def begins (key : CString) (pair : DictDataPair V) : Bool :=
  decide (strncmp pair.key.bytes key.bytes key.strlen = 0)

theorem findPass_entry (laid : Laid m d chains) (key : CString) {i : Nat} (inside : i < d.maxCount)
    {before after : List (Entry V)} {entry : Entry V} (split : chains i = before ++ entry :: after) :
    m.findPass key (searchAt before (entry :: after)) =
      .ok (if begins key entry.pair then .done (searchAt before (entry :: after))
        else .again (searchAt (before ++ [entry]) after)) := by
  have linked := laid.stored.linked i inside
  rw [split] at linked
  have here := Heap.load_eq linked.here
  have name := Heap.load_eq (laid.stored.named i inside entry (by simp [split]))
  by_cases same : strncmp entry.pair.key.bytes key.bytes key.strlen = 0
  · simp [DictMemory.findPass, searchAt, begins, here, name, same]
  · simp [DictMemory.findPass, searchAt, begins, here, name, same]

theorem dictFind_stops (laid : Laid m d chains) (valid : Valid d) (key : CString) :
    (dictFind d key = none ∧ ∃ s, Exec.Returns (m.dictFind key) s ∧ s.cur = none) ∨
      ∃ before entry after, chains (dictIndex d key) = before ++ entry :: after ∧
        dictFind d key = some ⟨before.map Entry.pair, entry.pair, after.map Entry.pair⟩ ∧
        Exec.Returns (m.dictFind key) (searchAt before (entry :: after)) := by
  have inside := dictIndex_lt d key valid.pos
  have search := Chain.search_map (begins key) Entry.pair (chains (dictIndex d key))
  rw [laid.pairs _ inside] at search
  have runs := returns_search (m.findPass key) (begins key ∘ Entry.pair) searchAt searchAt
    (fun before entry after => findPass_entry laid key inside) rfl
    (show chains (dictIndex d key) = [] ++ chains (dictIndex d key) from rfl)
  by_cases filled : 0 < d.memberCount (dictIndex d key)
  · have find : dictFind d key = Chain.search (begins key) (d.members (dictIndex d key)) := if_pos filled
    have loop : m.dictFind key = fun fuel => Exec.loop (m.findPass key) fuel (searchAt [] (chains (dictIndex d key))) := by
      funext fuel
      rw [DictMemory.dictFind, laid.index, laid.memberCount, laid.members _ inside, if_pos filled]
      rfl
    rw [loop, find, search]
    cases found : Chain.search (begins key ∘ Entry.pair) (chains (dictIndex d key)) with
    | none =>
        rw [found] at runs
        exact .inl ⟨rfl, _, runs, rfl⟩
    | some f =>
        rw [found] at runs
        exact .inr ⟨f.before, f.here, f.after, (Chain.search_eq_some.mp found).1, rfl, runs⟩
  · refine .inl ⟨if_neg filled, ⟨none, none⟩, ⟨0, ?_⟩, rfl⟩
    rw [DictMemory.dictFind, laid.index, laid.memberCount, if_neg filled]
    rfl

end Search

/-! ## The operations -/

section Operations
variable {m : DictMemory V} {d : Dict V} {chains : Nat → List (Entry V)} {i : Nat}

theorem Laid.replace (laid : Laid m d chains) {chain : List (Entry V)} {pairs : Heap (Cell (DataPair V))}
    {keys : Heap CString} {members : Nat → Option Nat} (counter count : Nat)
    (stored : Stored pairs keys d.maxCount (Function.update chains i chain))
    (here : members i = head Entry.node chain) (others : ∀ j, j ≠ i → members j = m.members j) :
    Laid { m with
        pairs := pairs
        keys := keys
        members := members
        memberCount := Function.update m.memberCount i counter
        count := count }
      { d with
        members := Function.update d.members i (chain.map Entry.pair)
        memberCount := Function.update d.memberCount i counter
        count := count }
      (Function.update chains i chain) where
  stored := stored
  maxCount := laid.maxCount
  count := rfl
  memberCount := by rw [laid.memberCount]
  hashFn := laid.hashFn
  members := by
    intro j inside
    by_cases same : j = i
    · rw [same, Function.update_self]
      exact here
    · rw [Function.update_of_ne same]
      exact (others j same).trans (laid.members j inside)
  pairs := by
    intro j inside
    by_cases same : j = i
    · simp only [same, Function.update_self]
    · simp only [Function.update_of_ne same, laid.pairs j inside]

def withFirst (m : DictMemory V) (i : Nat) (key : CString) (val : V) : DictMemory V :=
  { m with
    pairs := (m.pairs.malloc ⟨m.members i, ⟨m.keys.next, val⟩⟩).2
    keys := (m.keys.malloc key).2
    members := Function.update m.members i (some m.pairs.next) }

theorem push_eq (m : DictMemory V) (i : Nat) (key : CString) (val : V) :
    (m.dictDataPairCreate key val).2.push i m.pairs.next = .ok (withFirst m i key val) := by
  cases first : m.members i with
  | none =>
      simp [DictMemory.push, DictMemory.dictDataPairCreate, DictMemory.setMember, withFirst, Heap.malloc, first]
  | some dp =>
      simp [DictMemory.push, DictMemory.dictDataPairCreate, DictMemory.setMember, DictMemory.setNext, withFirst,
        Heap.malloc, Heap.load, Heap.store, first]

theorem Stored.insert {pairs : Heap (Cell (DataPair V))} {keys : Heap CString} {size : Nat}
    (stored : Stored pairs keys size chains) (inside : i < size) (key : CString) (val : V) :
    Stored (pairs.malloc ⟨head Entry.node (chains i), ⟨keys.next, val⟩⟩).2 (keys.malloc key).2 size
      (Function.update chains i (⟨pairs.next, keys.next, ⟨key, val⟩⟩ :: chains i)) where
  linked := by
    intro j there
    have old : InCells (pairs.malloc ⟨head Entry.node (chains i), ⟨keys.next, val⟩⟩).2 (chains j) :=
      (stored.linked j there).frame fun entry member => stored.nodes.malloc_other _ (mem_blocks there member)
    by_cases same : j = i
    · subst same
      rw [Function.update_self]
      exact ⟨Function.update_self .., old⟩
    · rwa [Function.update_of_ne same]
  named := by
    intro j there entry member
    have old (member : entry ∈ chains j) : (keys.malloc key).2.cell entry.name = some entry.pair.key :=
      (stored.names.malloc_other key (mem_blocks there member)).trans (stored.named j there entry member)
    by_cases same : j = i
    · subst same
      rw [Function.update_self] at member
      rcases List.mem_cons.mp member with rfl | member
      · exact Function.update_self ..
      · exact old member
    · rw [Function.update_of_ne same] at member
      exact old member
  nodes := by
    rw [blocks_cons inside]
    exact stored.nodes.malloc _
  names := by
    rw [blocks_cons inside]
    exact stored.names.malloc key

theorem Stored.remove {pairs : Heap (Cell (DataPair V))} {keys : Heap CString} {size : Nat}
    {before after : List (Entry V)} {entry : Entry V} (inside : i < size)
    (split : chains i = before ++ entry :: after)
    (linked : ∀ j < size, InCells pairs (Function.update chains i (before ++ after) j))
    (named : ∀ j < size, ∀ entry ∈ chains j, keys.cell entry.name = some entry.pair.key)
    (nodes : Ledger pairs (blocks Entry.node size chains)) (names : Ledger keys (blocks Entry.name size chains)) :
    Stored ⟨Function.update pairs.cell entry.node none, pairs.next⟩
      ⟨Function.update keys.cell entry.name none, keys.next⟩ size (Function.update chains i (before ++ after)) where
  linked := by
    intro j there
    apply (linked j there).frame
    intro other member
    exact Function.update_of_ne (blocks_apart nodes.once inside split there member) _ _
  named := by
    intro j there other member
    refine (Function.update_of_ne (blocks_apart names.once inside split there member) _ _).trans ?_
    apply named j there
    by_cases same : j = i
    · subst same
      rw [Function.update_self] at member
      rw [split]
      rcases List.mem_append.mp member with front | back
      · exact List.mem_append_left _ front
      · exact List.mem_append_right _ (List.mem_cons_of_mem entry back)
    · rwa [Function.update_of_ne same] at member
  nodes := by
    rw [← blocks_remove inside split] at nodes
    exact nodes.free_at
  names := by
    rw [← blocks_remove inside split] at names
    exact names.free_at

theorem call_put (laid : Laid m d chains) (valid : Valid d) (key : CString) (val : V) :
    ∃ m' chains', Exec.Returns (fun fuel => m.call fuel (.put key val)) (.put (dictPut d key val).1, m') ∧
      Laid m' (dictPut d key val).2 chains' := by
  rcases dictFind_stops laid valid key with ⟨absent, s, ⟨fuel, finds⟩, ends⟩ | ⟨_, entry, _, _, present, fuel, finds⟩
  · have inside := dictIndex_lt d key valid.pos
    have stored := laid.stored.insert inside key val
    have replaced := laid.replace (addOne (m.memberCount (dictIndex d key))) (addOne m.count) stored
      (Function.update_self ..) (fun j away => Function.update_of_ne away _ _)
    have result : (dictPut d key val).2 = { d with
        members := Function.update d.members (dictIndex d key) (⟨key, val⟩ :: (chains (dictIndex d key)).map Entry.pair)
        memberCount := Function.update d.memberCount (dictIndex d key) (addOne (m.memberCount (dictIndex d key)))
        count := addOne m.count } := by
      rw [dictPut, absent, laid.memberCount, laid.count, laid.pairs _ inside]
    rw [List.map_cons, ← result, ← laid.members _ inside] at replaced
    have slot : ((withFirst m (dictIndex d key) key val).countUp (dictIndex d key)).pairs.load m.pairs.next = _ :=
      Heap.load_eq (Function.update_self ..)
    refine ⟨(withFirst m (dictIndex d key) key val).countUp (dictIndex d key), _, ⟨fuel, ?_⟩, replaced⟩
    simp only [DictMemory.call, DictMemory.dictPut, finds, ends, Exec.ok_bind, laid.index]
    rw [show (m.dictDataPairCreate key val).1 = m.pairs.next from rfl, push_eq]
    simp [DictMemory.readSlot, slot, dictPut, absent]
  · refine ⟨m, chains, ⟨fuel, ?_⟩, ?_⟩
    · simp [DictMemory.call, DictMemory.dictPut, DictMemory.readSlot, finds, searchAt, dictPut, present]
    · simpa [dictPut, present] using laid

theorem call_get (laid : Laid m d chains) (valid : Valid d) (key : CString) :
    Exec.Returns (fun fuel => m.call fuel (.get key)) (.get (dictGet d key), m) := by
  rcases dictFind_stops laid valid key with ⟨absent, s, ⟨fuel, finds⟩, ends⟩ |
    ⟨before, entry, after, split, present, fuel, finds⟩
  · refine ⟨fuel, ?_⟩
    simp [DictMemory.call, DictMemory.dictGet, finds, ends, dictGet, absent]
  · have linked := laid.stored.linked _ (dictIndex_lt d key valid.pos)
    rw [split] at linked
    refine ⟨fuel, ?_⟩
    simp [DictMemory.call, DictMemory.dictGet, finds, searchAt, Heap.load_eq linked.here, dictGet, present]

-- After the unlinking the entry is out of its chain, and its blocks are still there.
theorem unlink_laid (laid : Laid m d chains) (inside : i < d.maxCount) {before after : List (Entry V)} {entry : Entry V}
    (split : chains i = before ++ entry :: after) :
    ∃ pairs members, m.unlink i (before.getLast?.map Entry.node) (head Entry.node after) =
        .ok { m with pairs := pairs, members := members } ∧
      pairs.cell entry.node = some ⟨head Entry.node after, entry.content⟩ ∧
      (∀ j < d.maxCount, InCells pairs (Function.update chains i (before ++ after) j)) ∧
      Ledger pairs (blocks Entry.node d.maxCount chains) ∧
      members i = head Entry.node (before ++ after) ∧ ∀ j, j ≠ i → members j = m.members j := by
  have linked := laid.stored.linked i inside
  rw [split] at linked
  rcases List.eq_nil_or_concat before with rfl | ⟨front, prev, rfl⟩
  · refine ⟨m.pairs, Function.update m.members i (head Entry.node after), rfl, linked.here, ?_, laid.stored.nodes,
      Function.update_self .., fun j away => Function.update_of_ne away _ _⟩
    intro j there
    by_cases same : j = i
    · subst same
      rw [Function.update_self]
      exact linked.2
    · rw [Function.update_of_ne same]
      exact laid.stored.linked j there
  · have split' : chains i = front ++ prev :: entry :: after := by simp [split]
    have chain : front.concat prev ++ after = front ++ prev :: after := by simp
    rw [← split, split'] at linked
    have apart (j) (there : j < d.maxCount) (other) (member : other ∈ Function.update chains i (front ++ entry :: after) j) :
        other.node ≠ prev.node := blocks_apart laid.stored.nodes.once inside split' there member
    have inChain (other) (member : other ∈ front ++ entry :: after) : other.node ≠ prev.node :=
      apart i inside other (by simpa using member)
    have there := linked.here
    have stored := laid.stored.nodes.store (mem_blocks inside (by simp [split'] : prev ∈ chains i))
      ⟨head Entry.node after, prev.content⟩
    refine ⟨_, m.members, ?_, ?_, ?_, stored, ?_, fun _ _ => rfl⟩
    · simp [DictMemory.unlink, DictMemory.setNext, Heap.load_eq there, Heap.store_eq there]
    · refine (Function.update_of_ne (inChain entry (by simp)) _ _).trans ?_
      exact (linked.rest.2).1
    · intro j bound
      by_cases same : j = i
      · subst same
        rw [Function.update_self, chain]
        apply linked.unlink
        intro other member
        apply inChain
        rcases List.mem_append.mp member with first | last
        · exact List.mem_append_left _ first
        · exact List.mem_append_right _ (List.mem_cons_of_mem entry last)
      · rw [Function.update_of_ne same]
        apply (laid.stored.linked j bound).frame
        intro other member
        exact Function.update_of_ne (apart j bound other (by rwa [Function.update_of_ne same])) _ _
    · rw [laid.members i inside, split', chain]
      exact head_append front (entry :: after) after prev

theorem call_del (laid : Laid m d chains) (valid : Valid d) (key : CString) :
    ∃ m' chains', Exec.Returns (fun fuel => m.call fuel (.del key)) (.del (dictDel d key).1 (dictDel d key).2.1, m') ∧
      Laid m' (dictDel d key).2.2 chains' := by
  rcases dictFind_stops laid valid key with ⟨absent, s, ⟨fuel, finds⟩, ends⟩ |
    ⟨before, entry, after, split, present, fuel, finds⟩
  · refine ⟨m, chains, ⟨fuel, ?_⟩, ?_⟩
    · simp [DictMemory.call, DictMemory.dictDel, finds, ends, dictDel, absent]
    · simpa [dictDel, absent] using laid
  · have inside := dictIndex_lt d key valid.pos
    have linked := laid.stored.linked _ inside
    rw [split] at linked
    obtain ⟨pairs, members, unlinked, there, chained, nodes, here, others⟩ := unlink_laid laid inside split
    have stored := Stored.remove inside split chained laid.stored.named nodes laid.stored.names
    have replaced := laid.replace (subOne (m.memberCount (dictIndex d key))) (subOne m.count) stored here others
    have result : (dictDel d key).2.2 = { d with
        members := Function.update d.members (dictIndex d key) ((before ++ after).map Entry.pair)
        memberCount := Function.update d.memberCount (dictIndex d key) (subOne (m.memberCount (dictIndex d key)))
        count := subOne m.count } := by
      rw [dictDel, present, laid.memberCount, laid.count, List.map_append]
    rw [← result] at replaced
    have named := laid.stored.named _ inside entry (by simp [split])
    have nulled : DictMemory.setNext { m with pairs := pairs, members := members } entry.node none = .ok { m with
        pairs := ⟨Function.update pairs.cell entry.node (some ⟨none, entry.content⟩), pairs.next⟩
        members := members } := by
      simp [DictMemory.setNext, Heap.load_eq there, Heap.store_eq there]
    have freed : Heap.free ⟨Function.update pairs.cell entry.node (some ⟨none, entry.content⟩), pairs.next⟩ entry.node =
        .ok ⟨Function.update pairs.cell entry.node none, pairs.next⟩ := by
      rw [Heap.free_eq (Function.update_self ..), Function.update_idem]
    refine ⟨_, _, ⟨fuel, ?_⟩, replaced⟩
    simp [DictMemory.call, DictMemory.dictDel, finds, searchAt, Heap.load_eq linked.here, laid.index, unlinked,
      nulled, Heap.free_eq named, freed, DictMemory.countDown, dictDel, present]

end Operations

end SampleFs.Proof.Dict

import Mathlib.Data.List.Forall2
import SampleFs.Base.HashmapMemory
import SampleFs.Proof.Hashmap.Structure

/-!
# Tearing a map down

`c_hashmap_deinit` frees every pair of a map that has some, once, and leaves the map pointing at them;
a map that has none makes it return -1, and then `c_hashmap_destroy` keeps the structure.
-/

namespace SampleFs.Proof.Hashmap
open Lib Base

/-- The pairs at these addresses follow each other from `head` to the end of a chain. -/
def Threads (pairs : Nat → Option PairNode) : Option Nat → List Nat → Prop
  | head, [] => head = none
  | head, pair :: rest =>
      head = some pair ∧ ∃ node, pairs pair = some node ∧ Threads pairs node.next rest

structure Shaped (m : MapMemory) (chains : List (List Nat)) : Prop where
  allocated : m.allocated = true
  array : m.ptr.length = m.maxCount
  buckets : List.Forall₂ (Threads m.pairs) m.ptr chains
  apart : chains.flatten.Nodup
  counted : m.curCount = chains.flatten.length

/-- Each pair is freed once, with its key and its value given to the callbacks that are set. -/
structure ReleasedOnce (m after : MapMemory) (chained : List Nat) : Prop where
  order : ∃ order, order.Perm chained ∧ after.released = m.released ++ order ∧
    after.keysFreed = m.keysFreed ++ (if m.keyFreeCb then
      order.filterMap fun pair => (m.pairs pair).map PairNode.key else []) ∧
    after.valsFreed = m.valsFreed ++ (if m.valFreeCb then
      order.filterMap fun pair => (m.pairs pair).map PairNode.val else [])
  gone : ∀ pair ∈ chained, after.pairs pair = none
  others : ∀ pair, pair ∉ chained → after.pairs pair = m.pairs pair

def Emptied (m : MapMemory) : Prop := (∀ head ∈ m.ptr, head = none) ∧ m.curCount = 0

def TearsDown (m : MapMemory) (chained : List Nat) : Prop :=
  (∃ result after, Exec.Returns (cHashmapDeinit m) (result, after) ∧
    ReleasedOnce m after chained ∧ Emptied after ∧
    ∃ again, Exec.Returns (cHashmapDeinit after) again) ∧
  ∃ after, Exec.Returns (cHashmapDestroy m) after ∧ after.allocated = false

/-! ## One chain -/

theorem Threads.congr {pairs pairs' : Nat → Option PairNode} {head : Option Nat} {chain : List Nat}
    (threads : Threads pairs head chain) (same : ∀ pair ∈ chain, pairs' pair = pairs pair) :
    Threads pairs' head chain := by
  induction chain generalizing head with
  | nil => exact threads
  | cons pair rest ih =>
      obtain ⟨here, node, there, later⟩ := threads
      refine ⟨here, node, (same pair List.mem_cons_self).trans there, ih later ?_⟩
      intro other member
      exact same other (List.mem_cons_of_mem pair member)

def dropAll (m : MapMemory) (chain : List Nat) : MapMemory :=
  chain.foldl (fun m pair => match m.pairs pair with
    | some node => m.drop pair node
    | none => m) m

theorem dropAll_cons {m : MapMemory} {pair : Nat} {node : PairNode} (there : m.pairs pair = some node)
    (rest : List Nat) : dropAll m (pair :: rest) = dropAll (m.drop pair node) rest := by
  simp only [dropAll, List.foldl_cons, there]

theorem dropAll_append (m : MapMemory) (chain rest : List Nat) :
    dropAll m (chain ++ rest) = dropAll (dropAll m chain) rest := List.foldl_append

theorem dropAll_frame (m : MapMemory) (chain : List Nat) :
    (dropAll m chain).ptr = m.ptr ∧ (dropAll m chain).curCount = m.curCount ∧
      (dropAll m chain).maxCount = m.maxCount ∧ (dropAll m chain).allocated = m.allocated := by
  induction chain generalizing m with
  | nil => exact ⟨rfl, rfl, rfl, rfl⟩
  | cons pair rest ih =>
      cases there : m.pairs pair with
      | none =>
          have skips : dropAll m (pair :: rest) = dropAll m rest := by
            simp only [dropAll, List.foldl_cons, there]
          rw [skips]
          exact ih m
      | some node =>
          rw [dropAll_cons there]
          exact ih (m.drop pair node)

theorem drop_other {m : MapMemory} {pair other : Nat} {node : PairNode} (ne : other ≠ pair) :
    (m.drop pair node).pairs other = m.pairs other := Function.update_of_ne ne _ _

theorem teardownPass_returns {m : MapMemory} {head : Option Nat} {chain : List Nat}
    (threads : Threads m.pairs head chain) (once : chain.Nodup) :
    Exec.Returns (fun fuel => Exec.loop teardownPass fuel { m, tmp := head }) (dropAll m chain) := by
  induction chain generalizing m head with
  | nil =>
      cases threads
      exact Exec.returns_done rfl
  | cons pair rest ih =>
      obtain ⟨rfl, node, there, later⟩ := threads
      obtain ⟨absent, restOnce⟩ := List.nodup_cons.mp once
      rw [dropAll_cons there]
      refine Exec.returns_again ?_ (ih (later.congr ?_) restOnce)
      · simp [teardownPass, cMemberPairFree, MapMemory.readPair, there]
      · intro other member
        exact drop_other fun same => absent (same ▸ member)

theorem Threads.present {pairs : Nat → Option PairNode} {head : Option Nat} {chain : List Nat}
    (threads : Threads pairs head chain) : ∀ pair ∈ chain, (pairs pair).isSome := by
  induction chain generalizing head with
  | nil => simp
  | cons pair rest ih =>
      obtain ⟨_, node, there, later⟩ := threads
      simp only [List.forall_mem_cons]
      exact ⟨by simp [there], ih later⟩

section Dropped
variable {m : MapMemory} {chain : List Nat} (present : ∀ pair ∈ chain, (m.pairs pair).isSome)
  (once : chain.Nodup)
include present once

theorem dropAll_pairs (pair : Nat) :
    (dropAll m chain).pairs pair = if pair ∈ chain then none else m.pairs pair := by
  induction chain generalizing m with
  | nil => simp [dropAll]
  | cons first rest ih =>
      obtain ⟨node, there⟩ := Option.isSome_iff_exists.mp (present first List.mem_cons_self)
      obtain ⟨absent, restOnce⟩ := List.nodup_cons.mp once
      have later : ∀ other ∈ rest, ((m.drop first node).pairs other).isSome := by
        intro other member
        have ne : other ≠ first := fun same => absent (same ▸ member)
        rw [drop_other ne]
        exact present other (List.mem_cons_of_mem first member)
      rw [dropAll_cons there, ih later restOnce]
      by_cases same : pair = first
      · subst same
        simp [absent, MapMemory.drop]
      · simp [same, drop_other same]

theorem dropAll_logs :
    (dropAll m chain).released = m.released ++ chain ∧
    (dropAll m chain).keysFreed = m.keysFreed ++ (if m.keyFreeCb then
      chain.filterMap fun pair => (m.pairs pair).map PairNode.key else []) ∧
    (dropAll m chain).valsFreed = m.valsFreed ++ (if m.valFreeCb then
      chain.filterMap fun pair => (m.pairs pair).map PairNode.val else []) := by
  induction chain generalizing m with
  | nil => simp [dropAll]
  | cons first rest ih =>
      obtain ⟨node, there⟩ := Option.isSome_iff_exists.mp (present first List.mem_cons_self)
      obtain ⟨absent, restOnce⟩ := List.nodup_cons.mp once
      have same : ∀ other ∈ rest, (m.drop first node).pairs other = m.pairs other := by
        intro other member
        exact drop_other fun same => absent (same ▸ member)
      have later : ∀ other ∈ rest, ((m.drop first node).pairs other).isSome := by
        intro other member
        rw [same other member]
        exact present other (List.mem_cons_of_mem first member)
      obtain ⟨released, keys, vals⟩ := ih later restOnce
      have fields (field : PairNode → Nat) :
          (rest.filterMap fun pair => ((m.drop first node).pairs pair).map field) =
            rest.filterMap fun pair => (m.pairs pair).map field :=
        List.filterMap_congr fun other member => by rw [same other member]
      rw [dropAll_cons there, released, keys, vals, fields, fields]
      refine ⟨by simp [MapMemory.drop], ?_, ?_⟩
      · cases set : m.keyFreeCb <;> simp [MapMemory.drop, set, there]
      · cases set : m.valFreeCb <;> simp [MapMemory.drop, set, there]

theorem dropAll_releasedOnce : ReleasedOnce m (dropAll m chain) chain := by
  refine ⟨⟨chain, .refl chain, dropAll_logs present once⟩, ?_, ?_⟩
  · intro pair member
    rw [dropAll_pairs present once, if_pos member]
  · intro pair absent
    rw [dropAll_pairs present once, if_neg absent]

end Dropped

/-! ## All buckets -/

theorem present_flatten {m : MapMemory} {heads : List (Option Nat)} {chains : List (List Nat)}
    (buckets : List.Forall₂ (Threads m.pairs) heads chains) :
    ∀ pair ∈ chains.flatten, (m.pairs pair).isSome := by
  induction buckets with
  | nil => simp
  | cons threads _ ih =>
      intro pair member
      rcases List.mem_append.mp member with here | later
      · exact threads.present pair here
      · exact ih pair later

theorem buckets_congr {pairs pairs' : Nat → Option PairNode} {heads : List (Option Nat)}
    {chains : List (List Nat)} (buckets : List.Forall₂ (Threads pairs) heads chains)
    (same : ∀ pair ∈ chains.flatten, pairs' pair = pairs pair) :
    List.Forall₂ (Threads pairs') heads chains := by
  induction buckets with
  | nil => exact .nil
  | cons threads _ ih =>
      refine .cons (threads.congr ?_) (ih ?_)
      · intro pair member
        exact same pair (List.mem_append_left _ member)
      · intro pair member
        exact same pair (List.mem_append_right _ member)

theorem teardownBucket_growing (m : MapMemory) (i : Nat) :
    Exec.Growing (fun fuel => teardownBucket fuel m i) := by
  refine Exec.Growing.bind ?_ fun tmp => Exec.Growing.loop (fun s => ?_) _
  · exact .const _
  · exact .const _

theorem bucket_first {pairs : Nat → Option PairNode} {ptr : List (Option Nat)} {k : Nat}
    {chain : List Nat} {rest : List (List Nat)}
    (buckets : List.Forall₂ (Threads pairs) (ptr.drop k) (chain :: rest)) :
    ∃ head, ptr[k]? = some head ∧ Threads pairs head chain ∧
      List.Forall₂ (Threads pairs) (ptr.drop (k + 1)) rest := by
  obtain ⟨head, heads, threads, later, split⟩ := List.forall₂_cons_right_iff.mp buckets
  refine ⟨head, ?_, threads, ?_⟩
  · rw [← List.head?_drop, split]
    rfl
  · rw [← List.drop_drop, split]
    exact later

theorem teardownBuckets_return {m : MapMemory} {chains : List (List Nat)} {k : Nat}
    (buckets : List.Forall₂ (Threads m.pairs) (m.ptr.drop k) chains) (apart : chains.flatten.Nodup) :
    Exec.Returns (fun fuel => (List.range' k chains.length).foldlM (teardownBucket fuel) m)
      (dropAll m chains.flatten) := by
  induction chains generalizing m k with
  | nil => exact ⟨0, rfl⟩
  | cons chain rest ih =>
      obtain ⟨head, here, threads, later⟩ := bucket_first buckets
      rw [List.flatten_cons] at apart ⊢
      obtain ⟨once, restApart, disjoint⟩ := List.nodup_append.mp apart
      have frame := (dropAll_frame m chain).1
      have first : Exec.Returns (fun fuel => teardownBucket fuel m k) (dropAll m chain) := by
        obtain ⟨fuel, runs⟩ := teardownPass_returns threads once
        refine ⟨fuel, ?_⟩
        simp only [teardownBucket, MapMemory.head, here, Exec.ok_bind]
        exact runs
      rw [dropAll_append, List.length_cons, List.range'_succ]
      simp only [List.foldlM_cons]
      refine (Exec.returns_bind_of (teardownBucket_growing m k) ?_ first).mpr (ih ?_ restApart)
      · intro next
        exact Exec.Growing.foldlM (fun b a => teardownBucket_growing b a) _ next
      · rw [frame]
        refine buckets_congr later ?_
        intro pair member
        have absent : pair ∉ chain := fun inside => disjoint pair inside pair member rfl
        rw [dropAll_pairs threads.present once, if_neg absent]

theorem teardownBucket_gone {m : MapMemory} {pairs : Nat → Option PairNode} {head : Option Nat}
    {chain : List Nat} {i : Nat} (here : m.ptr[i]? = some head) (threads : Threads pairs head chain)
    (gone : ∀ pair ∈ chain, m.pairs pair = none) (fuel : Nat) :
    chain = [] ∧ teardownBucket fuel m i = .ok m ∨ ∀ after, teardownBucket fuel m i ≠ .ok after := by
  simp only [teardownBucket, MapMemory.head, here, Exec.ok_bind]
  cases chain with
  | nil =>
      cases threads
      cases fuel with
      | zero => exact .inr fun _ returns => by cases returns
      | succ fuel => exact .inl ⟨rfl, rfl⟩
  | cons pair rest =>
      obtain ⟨rfl, _⟩ := threads
      have freed : teardownPass { m, tmp := some pair } = .fail .useAfterFree := by
        simp [teardownPass, MapMemory.readPair, gone pair List.mem_cons_self]
      exact .inr (Exec.loop_fails freed fuel)

-- The heads of a map that had pairs still lead to them.
theorem teardownBuckets_stuck {m : MapMemory} {pairs : Nat → Option PairNode}
    {chains : List (List Nat)} (buckets : List.Forall₂ (Threads pairs) m.ptr chains)
    (gone : ∀ pair ∈ chains.flatten, m.pairs pair = none) (chained : chains.flatten ≠ [])
    {fuel : Nat} {after : MapMemory} :
    (List.range chains.length).foldlM (teardownBucket fuel) m ≠ .ok after := by
  have each : ∀ i (inside : i < chains.length), chains[i] = [] ∧ teardownBucket fuel m i = .ok m ∨
      ∀ after, teardownBucket fuel m i ≠ .ok after := by
    intro i inside
    have within : i < m.ptr.length := by rw [buckets.length_eq]; exact inside
    refine teardownBucket_gone (List.getElem?_eq_getElem within) (buckets.get within inside) ?_ fuel
    intro pair member
    exact gone pair (List.mem_flatten.mpr ⟨_, List.getElem_mem inside, member⟩)
  apply Exec.foldlM_stuck
  · intro i member
    exact (each i (List.mem_range.mp member)).imp_left And.right
  · obtain ⟨pair, member⟩ := List.exists_mem_of_ne_nil _ chained
    obtain ⟨chain, there, inside⟩ := List.mem_flatten.mp member
    obtain ⟨i, less, rfl⟩ := List.mem_iff_getElem.mp there
    refine ⟨i, List.mem_range.mpr less, (each i less).resolve_left ?_⟩
    rintro ⟨empty, _⟩
    rw [empty] at inside
    cases inside

theorem heads_null {pairs : Nat → Option PairNode} {heads : List (Option Nat)}
    {chains : List (List Nat)} (buckets : List.Forall₂ (Threads pairs) heads chains)
    (empty : chains.flatten = []) : ∀ head ∈ heads, head = none := by
  induction buckets with
  | nil => simp
  | cons threads _ ih =>
      obtain ⟨rfl, rest⟩ := List.append_eq_nil_iff.mp empty
      simp only [List.forall_mem_cons]
      exact ⟨threads, ih rest⟩

theorem deinit_growing (m : MapMemory) : Exec.Growing (cHashmapDeinit m) := by
  refine Exec.Growing.bind ?_ fun _ => Exec.Growing.ite (Exec.Growing.bind ?_ fun _ => ?_) ?_
  · exact .const _
  · exact Exec.Growing.foldlM teardownBucket_growing _ m
  · exact .const _
  · exact .const _

theorem destroy_growing (m : MapMemory) : Exec.Growing (cHashmapDestroy m) := by
  refine Exec.Growing.bind (deinit_growing m) fun _ => ?_
  exact .const _

section Map
variable {m : MapMemory} {chains : List (List Nat)} (shaped : Shaped m chains)
include shaped

theorem Shaped.flatten_eq_nil (empty : m.curCount = 0) : chains.flatten = [] :=
  List.length_eq_zero_iff.mp (shaped.counted.symm.trans empty)

theorem Shaped.size : m.maxCount = chains.length := by
  rw [← shaped.array, shaped.buckets.length_eq]

theorem deinit_returns : Exec.Returns (cHashmapDeinit m)
    (if 0 < m.curCount then 0 else -1, dropAll m chains.flatten) := by
  by_cases more : 0 < m.curCount
  · obtain ⟨fuel, runs⟩ := teardownBuckets_return (k := 0) shaped.buckets shaped.apart
    refine ⟨fuel, ?_⟩
    simp only at runs
    simp [cHashmapDeinit, Exec.check, shaped.allocated, more, shaped.size, List.range_eq_range', runs]
  · have empty := shaped.flatten_eq_nil (by omega)
    refine ⟨0, ?_⟩
    simp [cHashmapDeinit, Exec.check, shaped.allocated, more, empty, dropAll]

theorem deinit_again : (∃ again, Exec.Returns (cHashmapDeinit (dropAll m chains.flatten)) again) ↔
    m.curCount = 0 := by
  obtain ⟨ptr, count, size, there⟩ := dropAll_frame m chains.flatten
  by_cases more : 0 < m.curCount
  · refine iff_of_false ?_ (by omega)
    rintro ⟨again, fuel, runs⟩
    have gone := (dropAll_releasedOnce (present_flatten shaped.buckets) shaped.apart).gone
    simp only [cHashmapDeinit, Exec.check, there, shaped.allocated, count, more, size, shaped.size,
      if_true, Exec.ok_bind] at runs
    obtain ⟨after, all, _⟩ := Exec.bind_eq_ok.mp runs
    have heads : List.Forall₂ (Threads m.pairs) (dropAll m chains.flatten).ptr chains := by
      rw [ptr]
      exact shaped.buckets
    refine teardownBuckets_stuck heads gone ?_ all
    · intro empty
      have counted := shaped.counted
      rw [empty] at counted
      simp only [List.length_nil] at counted
      omega
  · refine iff_of_true ⟨(-1, dropAll m chains.flatten), 0, ?_⟩ (by omega)
    simp [cHashmapDeinit, Exec.check, there, shaped.allocated, count, more]

theorem emptied_iff : Emptied (dropAll m chains.flatten) ↔ m.curCount = 0 := by
  obtain ⟨ptr, count, _⟩ := dropAll_frame m chains.flatten
  rw [Emptied, ptr, count]
  constructor
  · exact And.right
  · intro empty
    exact ⟨heads_null shaped.buckets (shaped.flatten_eq_nil empty), empty⟩

theorem destroy_returns : ∃ after, Exec.Returns (cHashmapDestroy m) after ∧
    (after.allocated = false ↔ 0 < m.curCount) := by
  obtain ⟨fuel, runs⟩ := deinit_returns shaped
  have there := (dropAll_frame m chains.flatten).2.2.2
  by_cases more : 0 < m.curCount
  · refine ⟨{ dropAll m chains.flatten with allocated := false }, ⟨fuel, ?_⟩, by simp [more]⟩
    simp [cHashmapDestroy, runs, more]
  · refine ⟨dropAll m chains.flatten, ⟨fuel, ?_⟩, ?_⟩
    · simp [cHashmapDestroy, runs, more]
    · rw [there, shaped.allocated]
      exact iff_of_false Bool.noConfusion more

theorem not_tearsDown : ¬ TearsDown m chains.flatten := by
  rintro ⟨⟨result, after, returns, _, emptied, _⟩, final, destroyed, freed⟩
  cases Exec.Returns.unique (deinit_growing m) returns (deinit_returns shaped)
  have empty := (emptied_iff shaped).mp emptied
  obtain ⟨same, runs, kept⟩ := destroy_returns shaped
  cases Exec.Returns.unique (destroy_growing m) destroyed runs
  have more := kept.mp freed
  omega

theorem hashmap_teardown :
    (∃ result after, Exec.Returns (cHashmapDeinit m) (result, after) ∧
      ReleasedOnce m after chains.flatten ∧ (Emptied after ↔ m.curCount = 0) ∧
      ((∃ again, Exec.Returns (cHashmapDeinit after) again) ↔ m.curCount = 0)) ∧
    (∃ after, Exec.Returns (cHashmapDestroy m) after ∧ (after.allocated = false ↔ 0 < m.curCount)) ∧
    ¬ TearsDown m chains.flatten := by
  refine ⟨⟨_, _, deinit_returns shaped, ?_, emptied_iff shaped, deinit_again shaped⟩,
    destroy_returns shaped, not_tearsDown shaped⟩
  exact dropAll_releasedOnce (present_flatten shaped.buckets) shaped.apart

end Map

/-! ## The same map as a list of chains -/

def pairAt (m : MapMemory) (bytes : Nat → Bytes) (pair : Nat) : Option CMemberPair :=
  (m.pairs pair).map fun node => ⟨bytes node.key, bytes node.val⟩

/-- The map that the memory holds, with `bytes` behind the pointers of the pairs. -/
structure Represents (m : MapMemory) (chains : List (List Nat)) (bytes : Nat → Bytes)
    (d : CHashmap) : Prop where
  maxCount : d.maxCount = m.maxCount
  curCount : d.curCount = m.curCount
  ptr : d.ptr = chains.map fun chain => chain.filterMap (pairAt m bytes)

theorem Represents.flatten {m : MapMemory} {chains : List (List Nat)} {bytes : Nat → Bytes}
    {d : CHashmap} (represents : Represents m chains bytes d) :
    d.ptr.flatten = chains.flatten.filterMap (pairAt m bytes) := by
  rw [represents.ptr, List.filterMap_flatten]

/-- What `deinit` frees is what `traverse` would have visited, in the same order. -/
theorem deinit_follows_traverse {m : MapMemory} {chains : List (List Nat)} {bytes : Nat → Bytes}
    {d : CHashmap} (shaped : Shaped m chains) (represents : Represents m chains bytes d) :
    ∃ result after order, Exec.Returns (cHashmapDeinit m) (result, after) ∧
      after.released = m.released ++ order ∧
      cHashmapTraverse d true = .ok (result, order.filterMap (pairAt m bytes)) := by
  have present := present_flatten shaped.buckets
  have size : (chains.flatten.filterMap (pairAt m bytes)).length = chains.flatten.length := by
    apply List.filterMap_length_eq_length.mpr
    intro pair member
    rw [pairAt, Option.isSome_map]
    exact present pair member
  have traverses : Traverses d := by
    apply traverses_of
    · rw [represents.ptr, List.length_map, represents.maxCount, ← shaped.array,
        shaped.buckets.length_eq]
    · rw [represents.curCount, shaped.counted, represents.flatten, size]
  refine ⟨_, _, chains.flatten, deinit_returns shaped, (dropAll_logs present shaped.apart).1, ?_⟩
  rw [traverses.1, represents.curCount, represents.flatten]

def onePair : MapMemory :=
  { allocated := true
    maxCount := 1
    curCount := 1
    ptr := [some 0]
    keyFreeCb := true
    valFreeCb := true
    pairs := fun pair => if pair = 0 then some ⟨10, 20, none⟩ else none
    released := []
    keysFreed := []
    valsFreed := [] }

theorem onePair_shaped : Shaped onePair [[0]] :=
  ⟨rfl, rfl, .cons ⟨rfl, ⟨10, 20, none⟩, rfl, rfl⟩ .nil, by simp, rfl⟩

theorem hashmap_teardown_one_pair :
    ∃ result after, Exec.Returns (cHashmapDeinit onePair) (result, after) ∧
      ReleasedOnce onePair after [0] ∧ ¬ Emptied after := by
  obtain ⟨⟨result, after, returns, once, emptied, _⟩, _⟩ := hashmap_teardown onePair_shaped
  exact ⟨result, after, returns, once, fun empty => absurd (emptied.mp empty) (by decide)⟩

theorem hashmap_deinit_leaves_heads : Shaped onePair [[0]] ∧ ¬ TearsDown onePair [0] :=
  ⟨onePair_shaped, not_tearsDown onePair_shaped⟩

end SampleFs.Proof.Hashmap

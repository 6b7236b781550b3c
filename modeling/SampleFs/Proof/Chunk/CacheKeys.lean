import SampleFs.Chunkserver.ChunkCache

/-!
# Keys of the chunk cache

`hashmap_key_compare_cb` compares the first four bytes and says 1 for equal; the table takes 0 for
equal. A search therefore stops at the first pair whose first four bytes differ.
-/

namespace SampleFs.Proof.Chunk
open Lib Base Chunkserver

theorem compare_eq_zero {a b : List UInt8} (longA : 4 ≤ a.length) (longB : 4 ≤ b.length) (len : Nat) :
    hashmapKeyCompareCb a b len = 0 ↔ a.take 4 ≠ b.take 4 := by
  have lengthA : (a.take 4).length = 4 := List.length_take_of_le longA
  have lengthB : (b.take 4).length = 4 := List.length_take_of_le longB
  have smallA := littleEndian_lt (a.take 4)
  have smallB := littleEndian_lt (b.take 4)
  rw [lengthA] at smallA
  rw [lengthB] at smallB
  have same := @toSigned_inj 32 _ _ (by decide) smallA smallB
  rw [ne_eq, ← littleEndian_inj (lengthA.trans lengthB.symm), ← same, hashmapKeyCompareCb]
  simp

section Chain
variable {d : CHashmap} {chain : List CMemberPair} {key : List UInt8}

variable (d chain key) in
/-- A search finds a pair when there is one with this key, and then such a pair. -/
def FindsKey : Prop :=
  ((cHashmapSearch d chain key key.length).isSome ↔ ∃ pair ∈ chain, pair.key = key) ∧
    ∀ found, cHashmapSearch d chain key key.length = some found → found.here.key = key

variable (d chain key) in
/-- Removing takes out one pair with this key, and nothing when there is none. -/
def RemovesKey (cc : ChunkCache) : Prop :=
  (∀ pair ∈ chain, pair.key ≠ key) ∧
      chunkCacheRemove (some cc) (some key) key.length = .ok (0, some cc) ∨
    ∃ before pair after, chain = before ++ pair :: after ∧ pair.key = key ∧
      chunkCacheRemove (some cc) (some key) key.length = .ok (0, some { cc with
        cache := some { d with
          ptr := d.ptr.set (cHashmapGetIndex d key key.length) (before ++ after)
          curCount := d.curCount - 1 } })

theorem search_none (callback : d.cmpCb = hashmapKeyCompareCb) (long : 4 ≤ key.length)
    (lengths : ∀ pair ∈ chain, pair.key.length = key.length) :
    cHashmapSearch d chain key key.length = none ↔ ∀ pair ∈ chain, pair.key.take 4 = key.take 4 := by
  rw [cHashmapSearch, Chain.search_eq_none]
  refine forall₂_congr fun pair member => ?_
  have differs := compare_eq_zero (by rw [lengths pair member]; exact long) long key.length
  rw [callback, decide_eq_false_iff_not, differs, ne_eq, not_not]

theorem search_differs (callback : d.cmpCb = hashmapKeyCompareCb) (long : 4 ≤ key.length)
    (lengths : ∀ pair ∈ chain, pair.key.length = key.length) {found : Chain.Found CMemberPair}
    (finds : cHashmapSearch d chain key key.length = some found) : found.here.key ≠ key := by
  obtain ⟨split, matched, _⟩ := Chain.search_eq_some.mp finds
  have member : found.here ∈ chain := by simp [split]
  have differs := compare_eq_zero (by rw [lengths _ member]; exact long) long key.length
  rw [callback] at matched
  intro same
  exact differs.mp (of_decide_eq_true matched) (by rw [same])

theorem chunk_cache_keys {cc : ChunkCache} (callback : d.cmpCb = hashmapKeyCompareCb)
    (cached : cc.cache = some d)
    (bucket : cHashmapBucket d (cHashmapGetIndex d key key.length) = .ok chain)
    (long : 4 ≤ key.length) (lengths : ∀ pair ∈ chain, pair.key.length = key.length) :
    FindsKey d chain key ∧ RemovesKey d chain key cc ↔
      ∀ pair ∈ chain, pair.key.take 4 = key.take 4 ∧ pair.key ≠ key := by
  have nothing := search_none callback long lengths
  constructor
  · rintro ⟨⟨finds, right⟩, _⟩
    cases search : cHashmapSearch d chain key key.length with
    | some found =>
        exact absurd (right found search) (search_differs callback long lengths search)
    | none =>
        intro pair member
        refine ⟨nothing.mp search pair member, ?_⟩
        intro same
        have some := finds.mpr ⟨pair, member, same⟩
        simp [search] at some
  · intro different
    have search := nothing.mpr fun pair member => (different pair member).1
    refine ⟨⟨?_, ?_⟩, .inl ⟨fun pair member => (different pair member).2, ?_⟩⟩
    · rw [search]
      refine iff_of_false (by simp) ?_
      rintro ⟨pair, member, same⟩
      exact (different pair member).2 same
    · rw [search]
      rintro found ⟨⟩
    · simp only [chunkCacheRemove, cached, cHashmapDel, bucket, Exec.ok_bind, search, Exec.pure_eq]
      rw [← cached]

end Chain

-- A map from `c_hashmap_alloc` has `max_count` 0, and then every key goes to bucket 1.
def keyedMap (chain : List CMemberPair) : CHashmap :=
  { maxCount := 0
    curCount := chain.length
    ptr := [[], chain]
    hashCb := hashmapHashCb
    cmpCb := hashmapKeyCompareCb
    keyFreeCb := false
    valFreeCb := false }

theorem chunk_cache_keys_share_prefix :
    FindsKey (keyedMap [⟨[1, 0, 0, 0, 1], [0]⟩]) [⟨[1, 0, 0, 0, 1], [0]⟩] [1, 0, 0, 0, 2] ∧
      RemovesKey (keyedMap [⟨[1, 0, 0, 0, 1], [0]⟩]) [⟨[1, 0, 0, 0, 1], [0]⟩] [1, 0, 0, 0, 2]
        ⟨some (keyedMap [⟨[1, 0, 0, 0, 1], [0]⟩]), []⟩ :=
  (chunk_cache_keys rfl rfl rfl (by decide) (by decide)).mpr (by decide)

theorem chunk_cache_finds_other_key :
    cHashmapBucket (keyedMap [⟨[1, 0, 0, 0], [0]⟩])
        (cHashmapGetIndex (keyedMap [⟨[1, 0, 0, 0], [0]⟩]) [2, 0, 0, 0] 4) =
      .ok [⟨[1, 0, 0, 0], [0]⟩] ∧
    ¬ FindsKey (keyedMap [⟨[1, 0, 0, 0], [0]⟩]) [⟨[1, 0, 0, 0], [0]⟩] [2, 0, 0, 0] ∧
    chunkCacheRemove (some ⟨some (keyedMap [⟨[1, 0, 0, 0], [0]⟩]), []⟩) (some [2, 0, 0, 0]) 4 =
      .ok (0, some ⟨some (keyedMap []), []⟩) := by
  refine ⟨rfl, ?_, rfl⟩
  rintro ⟨_, right⟩
  have wrong := right ⟨[], ⟨[1, 0, 0, 0], [0]⟩, []⟩ rfl
  simp at wrong

end SampleFs.Proof.Chunk

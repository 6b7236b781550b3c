import SampleFs.Base.Hashmap
import SampleFs.Lib.Trace

namespace SampleFs.Proof.Hashmap
open Lib Base

inductive HashmapCall where
  | put (key value : Bytes)
  | del (key : Bytes)

/-- Puts and deletions with keys of `keySz` bytes and values that are not empty. -/
def hashmapStep (keySz : Nat) : System CHashmap HashmapCall Int
  | d, .put key value, ret, d' => key.length = keySz ∧ value ≠ [] ∧
      cHashmapPut d (some key) keySz (some value) value.length = .ok (ret, d')
  | d, .del key, ret, d' => key.length = keySz ∧ cHashmapDel d (some key) keySz = .ok (ret, d')

/-! ## The map of the live keys -/

abbrev Live := List (Bytes × Bytes)

def Live.next (live : Live) : HashmapCall → Live
  | .put key value => (key, value) :: live.filter fun entry => entry.1 ≠ key
  | .del key => live.filter fun entry => entry.1 ≠ key

def liveAfter (history : List (HashmapCall × Int)) : Live :=
  history.foldl (fun live event => live.next event.1) []

structure MeetsLive (maxCount keySz : Nat) (live : Live) (d : CHashmap) : Prop where
  put : ∀ key value, key.length = keySz → value ≠ [] → (live.next (.put key value)).length ≤ maxCount →
    ∃ d', cHashmapPut d (some key) keySz (some value) value.length = .ok (0, d')
  get : ∀ key, key.length = keySz → match live.lookup key with
    | some value => ∃ buf, cHashmapGet d key keySz = .ok (some buf) ∧ buf.take value.length = value
    | none => cHashmapGet d key keySz = .ok none
  count : cHashmapCount d = live.length
  empty : cHashmapEmpty d = decide (live.length = 0)

/-! ## What a map from `c_hashmap_alloc` does -/

structure Unsized (d : CHashmap) : Prop where
  maxCount : d.maxCount = 0
  curCount : d.curCount = 0
  buckets : ∀ chain ∈ d.ptr, chain = []

theorem cHashmapAlloc_unsized {maxCount : Nat} {hashCb : Bytes → Nat → UInt32}
    {cmpCb : Bytes → Bytes → Nat → Int} {d : CHashmap}
    (made : cHashmapAlloc maxCount hashCb cmpCb = some d) : Unsized d := by
  unfold cHashmapAlloc at made
  split at made
  · cases made
    refine ⟨rfl, rfl, ?_⟩
    intro chain member
    exact List.eq_of_mem_replicate member
  · cases made

theorem cHashmapPut_unsized {d : CHashmap} (unsized : Unsized d) (key : Option Bytes) (keySz : Nat)
    (value : Option Bytes) (valueSz : Nat) : cHashmapPut d key keySz value valueSz = .ok (-1, d) := by
  unfold cHashmapPut
  split
  · rw [if_neg]
    rintro ⟨_, _, room⟩
    rw [unsized.maxCount] at room
    exact Nat.not_lt_zero _ room
  · rfl

theorem cHashmapGet_unsized {d : CHashmap} (unsized : Unsized d) (key : Bytes) (keySz : Nat) :
    cHashmapGet d key keySz = .ok none := by
  unfold cHashmapGet
  rw [if_neg]
  rw [unsized.curCount]
  exact Nat.lt_irrefl 0

theorem cHashmapDel_unsized {d d' : CHashmap} (unsized : Unsized d) {key : Option Bytes} {keySz : Nat}
    {ret : Int} (returned : cHashmapDel d key keySz = .ok (ret, d')) : d' = d := by
  unfold cHashmapDel at returned
  cases key with
  | none =>
      cases returned
      rfl
  | some key =>
      obtain ⟨chain, bucket, rest⟩ := Exec.bind_eq_ok.mp returned
      have empty : chain = [] := by
        unfold cHashmapBucket at bucket
        split at bucket
        · rename_i inside
          cases bucket
          exact unsized.buckets chain (List.mem_of_getElem? inside)
        · cases bucket
      subst empty
      simp only [cHashmapSearch, Chain.search] at rest
      cases rest
      rfl

theorem hashmapStep_unsized {keySz : Nat} {d d' : CHashmap} {call : HashmapCall} {ret : Int}
    (unsized : Unsized d) (step : hashmapStep keySz d call ret d') : Unsized d' := by
  cases call with
  | put key value =>
      obtain ⟨_, _, returned⟩ := step
      rw [cHashmapPut_unsized unsized] at returned
      cases returned
      exact unsized
  | del key => rwa [cHashmapDel_unsized unsized step.2]

theorem unsized_not_live {d : CHashmap} (unsized : Unsized d) (maxCount keySz : Nat) (live : Live) :
    ¬ MeetsLive maxCount keySz live d := by
  intro meets
  -- with no live key the emptiness test is the wrong way round; with one the count is wrong
  have count := meets.count
  have empty := meets.empty
  simp only [cHashmapCount, unsized.curCount] at count
  simp [cHashmapEmpty, unsized.curCount, ← count] at empty

theorem hashmap_never_map {maxCount keySz : Nat} {hashCb : Bytes → Nat → UInt32}
    {cmpCb : Bytes → Bytes → Nat → Int} {start d : CHashmap} {history : List (HashmapCall × Int)}
    (made : cHashmapAlloc maxCount hashCb cmpCb = some start)
    (run : Run (hashmapStep keySz) start history d) :
    ¬ MeetsLive maxCount keySz (liveAfter history) d ∧
      (∀ key value, cHashmapPut d (some key) keySz (some value) value.length = .ok (-1, d)) ∧
      ∀ key, cHashmapGet d key keySz = .ok none := by
  have unsized : Unsized d :=
    run.invariant Unsized (fun _ _ _ _ => hashmapStep_unsized) (cHashmapAlloc_unsized made)
  exact ⟨unsized_not_live unsized maxCount keySz _, fun _ _ => cHashmapPut_unsized unsized _ _ _ _,
    fun _ => cHashmapGet_unsized unsized _ _⟩

def memcmp (a b : Bytes) (n : Nat) : Int := if a.take n = b.take n then 0 else 1

abbrev oneBucket : CHashmap := ⟨0, 0, [[]], fun _ _ => 0, memcmp, false, false⟩

theorem hashmap_put_refused :
    cHashmapAlloc 1 (fun _ _ => 0) memcmp = some oneBucket ∧
      Run (hashmapStep 1) oneBucket [(.put [1] [2], -1)] oneBucket ∧
      liveAfter [(.put [1] [2], -1)] = [([1], [2])] ∧ cHashmapGet oneBucket [1] 1 = .ok none ∧
      ¬ MeetsLive 1 1 [] oneBucket := by
  refine ⟨rfl, .single ⟨rfl, by decide, rfl⟩, by decide, rfl, ?_⟩
  intro meets
  obtain ⟨d', returned⟩ := meets.put [1] [2] rfl (by decide) (by decide)
  cases returned

theorem hashmap_never_map_one :
    Run (hashmapStep 1) oneBucket [(.put [1] [2], -1)] oneBucket ∧
      ¬ MeetsLive 1 1 (liveAfter [(.put [1] [2], -1)]) oneBucket := by
  have made : cHashmapAlloc 1 (fun _ _ => 0) memcmp = some oneBucket := rfl
  have run : Run (hashmapStep 1) oneBucket [(.put [1] [2], -1)] oneBucket :=
    .single ⟨rfl, by decide, rfl⟩
  exact ⟨run, (hashmap_never_map made run).1⟩

end SampleFs.Proof.Hashmap

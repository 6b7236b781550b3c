import SampleFs.Proof.Hashmap.Map

/-!
# The bucket that a call indexes

`c_hashmap_alloc` leaves `max_count` at zero, and the jump hash over zero buckets gives 1. `put` and
`get` are kept away from the array by their counters; `del` is not.
-/

namespace SampleFs.Proof.Hashmap
open Lib Base

inductive TableCall where
  | put (key : Option Bytes) (keySz : Nat) (value : Option Bytes) (valueSz : Nat)
  | get (key : Bytes) (keySz : Nat)
  | del (key : Option Bytes) (keySz : Nat)

def tableStep : System CHashmap TableCall Unit
  | d, .put key keySz value valueSz, _, d' =>
      ∃ ret, cHashmapPut d key keySz value valueSz = .ok (ret, d')
  | d, .get key keySz, _, d' => ∃ value, cHashmapGet d key keySz = .ok value ∧ d' = d
  | d, .del key keySz, _, d' => ∃ ret, cHashmapDel d key keySz = .ok (ret, d')

/-- The index into `d->ptr` that a call comes to, if it comes to one. -/
def indexes (d : CHashmap) : TableCall → Option Nat
  | .put (some key) keySz (some _) valueSz =>
      if 0 < keySz ∧ 0 < valueSz ∧ d.curCount < d.maxCount then some (cHashmapGetIndex d key keySz)
      else none
  | .put _ _ _ _ => none
  | .get key keySz => if 0 < d.curCount then some (cHashmapGetIndex d key keySz) else none
  | .del (some key) keySz => some (cHashmapGetIndex d key keySz)
  | .del none _ => none

theorem cHashmapBucket_inside {d : CHashmap} {i : Nat} {chain : List CMemberPair}
    (bucket : cHashmapBucket d i = .ok chain) : i < d.ptr.length := by
  unfold cHashmapBucket at bucket
  split at bucket
  · next inside => exact (List.getElem?_eq_some_iff.mp inside).1
  · cases bucket

-- A call that comes back has found its bucket at this index.
theorem indexes_inside {d d' : CHashmap} {call : TableCall} {i : Nat}
    (step : tableStep d call () d') (comes : indexes d call = some i) : i < d.ptr.length := by
  cases call with
  | put key keySz value valueSz =>
      obtain ⟨ret, returned⟩ := step
      cases key with
      | none => cases comes
      | some key =>
          cases value with
          | none => cases comes
          | some value =>
              simp only [indexes] at comes
              simp only [cHashmapPut] at returned
              split at comes
              · next guard =>
                cases comes
                rw [if_pos guard] at returned
                obtain ⟨_, _, rest⟩ := Exec.bind_eq_ok.mp returned
                obtain ⟨chain, bucket, _⟩ := Exec.bind_eq_ok.mp rest
                exact cHashmapBucket_inside bucket
              · cases comes
  | get key keySz =>
      obtain ⟨value, returned, _⟩ := step
      simp only [indexes] at comes
      simp only [cHashmapGet] at returned
      split at comes
      · next guard =>
        cases comes
        rw [if_pos guard] at returned
        obtain ⟨chain, bucket, _⟩ := Exec.bind_eq_ok.mp returned
        exact cHashmapBucket_inside bucket
      · cases comes
  | del key keySz =>
      obtain ⟨ret, returned⟩ := step
      cases key with
      | none => cases comes
      | some key =>
          cases comes
          obtain ⟨chain, bucket, _⟩ := Exec.bind_eq_ok.mp returned
          exact cHashmapBucket_inside bucket

def IndexSafe (n : Nat) (hashCb : Bytes → Nat → UInt32) (cmpCb : Bytes → Bytes → Nat → Int) : Prop :=
  ∀ start, cHashmapAlloc n hashCb cmpCb = some start → ∀ history d, Run tableStep start history d →
    ∀ call i, indexes d call = some i → i < n

theorem cHashmapGetIndex_unsized {d : CHashmap} (unsized : Unsized d) (key : Bytes) (keySz : Nat) :
    cHashmapGetIndex d key keySz = 1 := by
  rw [cHashmapGetIndex, unsized.maxCount]
  rfl

theorem tableStep_unsized {d d' : CHashmap} {call : TableCall} {out : Unit} (unsized : Unsized d)
    (step : tableStep d call out d') : Unsized d' := by
  cases call with
  | put key keySz value valueSz =>
      obtain ⟨ret, returned⟩ := step
      rw [cHashmapPut_unsized unsized] at returned
      cases returned
      exact unsized
  | get key keySz =>
      obtain ⟨_, _, rfl⟩ := step
      exact unsized
  | del key keySz =>
      obtain ⟨ret, returned⟩ := step
      rwa [cHashmapDel_unsized unsized returned]

theorem indexes_unsized {d : CHashmap} (unsized : Unsized d) {call : TableCall} {i : Nat}
    (comes : indexes d call = some i) : i = 1 := by
  unfold indexes at comes
  split at comes
  · simp [unsized.maxCount] at comes
  · cases comes
  · simp [unsized.curCount] at comes
  · next key keySz =>
    cases comes
    exact cHashmapGetIndex_unsized unsized key keySz
  · cases comes

theorem hashmap_index_safe {n : Nat} (pos : 0 < n) (hashCb : Bytes → Nat → UInt32)
    (cmpCb : Bytes → Bytes → Nat → Int) : IndexSafe n hashCb cmpCb ↔ 2 ≤ n := by
  constructor
  · intro safe
    obtain ⟨start, made⟩ : ∃ start, cHashmapAlloc n hashCb cmpCb = some start := by
      rw [cHashmapAlloc, if_pos pos]
      exact ⟨_, rfl⟩
    have index := cHashmapGetIndex_unsized (cHashmapAlloc_unsized made) [0] 1
    exact safe start made [] start (.nil start) (.del (some [0]) 1) 1 (by rw [indexes, index])
  · intro two start made history d run call i comes
    have unsized : Unsized d :=
      run.invariant Unsized (fun _ _ _ _ => tableStep_unsized) (cHashmapAlloc_unsized made)
    have one := indexes_unsized unsized comes
    omega

theorem hashmap_index_safe_two : IndexSafe 2 (fun _ _ => 0) memcmp :=
  (hashmap_index_safe (by decide) _ _).mpr (by decide)

theorem hashmap_del_beyond : ¬ IndexSafe 1 (fun _ _ => 0) memcmp ∧
    cHashmapDel oneBucket (some [1]) 1 = .fail .outOfBounds := by
  refine ⟨?_, rfl⟩
  intro safe
  exact absurd (safe oneBucket rfl [] oneBucket (.nil _) (.del (some [1]) 1) 1 rfl) (by decide)

end SampleFs.Proof.Hashmap

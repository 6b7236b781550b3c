import SampleFs.Base.Hashmap
import SampleFs.Metaserver.Dict

namespace SampleFs.Proof.JumpHash
open Base Metaserver

/-- A key stays where it was or moves to one of the new buckets, so never between two old ones. -/
structure Undisrupted (jump : Nat → Nat → Nat) (key n m : Nat) : Prop where
  stays : jump key m = jump key n ∨ n ≤ jump key m
  among : jump key m < n → jump key m = jump key n

theorem undisrupted_of_raises {step : Nat → Nat → Nat} {n m : Nat} (raises : Raises step m) (grows : n < m)
    (key : Nat) : Undisrupted (jumpConsistent step) key n m := by
  have stays := jumpConsistent_grow raises grows.le key
  exact ⟨stays, fun old => stays.resolve_right (Nat.not_le.mpr old)⟩

theorem jump_undisrupted {n m : Nat} (grows : n < m) (small : m < 2 ^ 31) (key : Nat) :
    Undisrupted cHashmapJumpConsistent key n m ∧ Undisrupted dictJumpConsistent key n m ∧
      Undisrupted (fun key count => cHashJumpConsistent key count) key n m := by
  have raises : Raises jumpStep m := jumpStep_raises (small.le.trans (by norm_num))
  have settled := undisrupted_of_raises raises grows key
  exact ⟨settled, settled, settled⟩

theorem jump_undisrupted_grown : Undisrupted dictJumpConsistent 7 1024 2048 :=
  (jump_undisrupted (by norm_num) (by norm_num) 7).2.1

end SampleFs.Proof.JumpHash

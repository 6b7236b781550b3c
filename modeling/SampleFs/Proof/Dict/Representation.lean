import Mathlib.Data.List.Nodup
import SampleFs.Proof.Dict.Map

namespace SampleFs.Proof.Dict
open Lib Metaserver

variable {V : Type}

def table (d : Dict V) : List (DictDataPair V) := (List.range d.maxCount).flatMap d.members

/-- The three records of what the table holds: the chains, their counters and the total. -/
structure Representation (d : Dict V) : Prop where
  counted : ∀ i, i < d.maxCount → d.memberCount i = (d.members i).length
  total : d.count = ∑ i ∈ Finset.range d.maxCount, d.memberCount i
  placed : ∀ i, i < d.maxCount → ∀ pair ∈ d.members i,
    dictJumpConsistent (d.hashFn pair.key).toNat d.maxCount = i
  distinct : ((table d).map DictDataPair.key).Nodup

def AddsHead (before after : List (DictDataPair V)) : DictCall V → Prop
  | .put key val => after = ⟨key, val⟩ :: before
  | _ => False

def RemovesOne (before after : List (DictDataPair V)) : DictCall V → Prop
  | .del _ => ∃ front pair back, before = front ++ pair :: back ∧ after = front ++ back
  | _ => False

/-- A call leaves all chains alone, or changes one of them by one node. -/
def ChangesOneChain (d : Dict V) (call : DictCall V) (d' : Dict V) : Prop :=
  d' = d ∨ ∃ i, i < d.maxCount ∧ (∀ j, j ≠ i → d'.members j = d.members j) ∧
    (AddsHead (d.members i) (d'.members i) call ∨ RemovesOne (d.members i) (d'.members i) call)

theorem table_distinct {d : Dict V} (valid : Valid d) : ((table d).map DictDataPair.key).Nodup := by
  unfold table
  rw [List.map_flatMap, List.nodup_flatMap]
  refine ⟨fun i _ => valid.distinct i, ?_⟩
  apply List.Pairwise.imp _ List.nodup_range
  intro i j apart key first second
  obtain ⟨pair, inFirst, rfl⟩ := List.mem_map.mp first
  obtain ⟨other, inSecond, same⟩ := List.mem_map.mp second
  apply apart
  rw [← valid.placed i pair inFirst, ← same]
  exact valid.placed j other inSecond

theorem Valid.representation {d : Dict V} (valid : Valid d) : Representation d where
  counted := fun i _ => valid.counted i
  total := by
    rw [valid.total, entries, Chain.total]
    exact Finset.sum_congr rfl fun i _ => (valid.counted i).symm
  placed := fun i _ => valid.placed i
  distinct := table_distinct valid

theorem dictCall_changesOneChain {d : Dict V} (valid : Valid d) (call : DictCall V) :
    ChangesOneChain d call (dictCall d call).2 := by
  cases call with
  | get key => exact .inl rfl
  | put key val =>
      cases find : dictFind d key with
      | some found => exact .inl (by simp [dictCall, dictPut, find])
      | none =>
          refine .inr ⟨dictIndex d key, dictIndex_lt d key valid.pos, ?_, .inl ?_⟩
          · intro j away
            simp [dictCall, dictPut, find, Function.update_of_ne away]
          · simp [AddsHead, dictCall, dictPut, find]
  | del key =>
      cases find : dictFind d key with
      | none => exact .inl (by simp [dictCall, dictDel, find])
      | some found =>
          obtain ⟨split, _, _⟩ := (dictFind_eq_some valid key).mp find
          refine .inr ⟨dictIndex d key, dictIndex_lt d key valid.pos, ?_, .inr ?_⟩
          · intro j away
            simp [dictCall, dictDel, find, Function.update_of_ne away]
          · refine ⟨found.before, found.here, found.after, split, ?_⟩
            simp [dictCall, dictDel, find]

theorem dict_representation {maxCount : Nat} (pos : 0 < maxCount) (hashFn : CString → UInt32)
    {history : List (DictCall V × DictReply V)} {d : Dict V}
    (run : Run dictStep (dictCreate maxCount hashFn) history d) :
    Representation d ∧ ∀ call, ChangesOneChain d call (dictCall d call).2 := by
  have valid : Valid d :=
    run.invariant Valid (fun _ _ _ _ => dictStep_valid) (dictCreate_valid pos hashFn)
  exact ⟨valid.representation, dictCall_changesOneChain valid⟩

theorem dict_representation_ab : ChangesOneChain twoKeys (.del keyA) (dictDel twoKeys keyA).2.2 ∧
    Representation (dictDel twoKeys keyA).2.2 := by
  have changes := (dict_representation Nat.one_pos (fun _ => 0) twoKeys_run).2 (.del keyA)
  have deletes : Run dictStep twoKeys [(.del keyA, .del 0 (some 1))] (dictDel twoKeys keyA).2.2 :=
    .single (dictStep_taken twoKeys (.del keyA) (by decide))
  exact ⟨changes, (dict_representation Nat.one_pos (fun _ => 0) (twoKeys_run.append deletes)).1⟩

end SampleFs.Proof.Dict

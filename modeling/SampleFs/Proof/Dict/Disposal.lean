import Mathlib.Algebra.Order.Group.Multiset
import SampleFs.Proof.Dict.Map

/-!
# What becomes of the values

Every value that is stored is in the table until `dict_del` hands it to the free function. What is
left then is up to `dict_deinit`, which hands over the addresses of the value slots instead.
-/

namespace SampleFs.Proof.Dict
open Lib Metaserver

variable {P : Type}

def slotStep : System (Dict (Slot P)) (DictCall (Slot P)) (DictReply (Slot P)) :=
  fun d call reply d' => dictCall d call = (reply, d')

def storedBy : DictCall (Slot P) × DictReply (Slot P) → Multiset P
  | (.put _ slot, .put (some _)) => {slot.val}
  | _ => 0

def handedBy : DictCall (Slot P) × DictReply (Slot P) → Multiset P
  | (.del _, .del _ (some slot)) => {slot.val}
  | _ => 0

def storedVals (history : List (DictCall (Slot P) × DictReply (Slot P))) : Multiset P :=
  (history.map storedBy).sum

def handedVals (history : List (DictCall (Slot P) × DictReply (Slot P))) : Multiset P :=
  (history.map handedBy).sum

def leftVals (d : Dict (Slot P)) : Multiset P :=
  ∑ i ∈ Finset.range d.maxCount, ((d.members i).map fun dp => dp.val.val : Multiset P)

/-- The addresses of the slots in the buckets that are not taken for empty. -/
def visitedAddrs (d : Dict (Slot P)) : Multiset P :=
  ∑ i ∈ (Finset.range d.maxCount).filter fun i => 0 < d.memberCount i,
    ((d.members i).map fun dp => dp.val.addr : Multiset P)

def Disposed (history : List (DictCall (Slot P) × DictReply (Slot P))) (d : Dict (Slot P)) : Prop :=
  handedVals history + dictDeinitFreed d = storedVals history

def vals (chain : List (DictDataPair (Slot P))) : Multiset P := chain.map fun dp => dp.val.val

theorem vals_cons (dp : DictDataPair (Slot P)) (chain : List (DictDataPair (Slot P))) :
    vals (dp :: chain) = {dp.val.val} + vals chain := by
  simp [vals, Multiset.singleton_add]

theorem vals_append (front back : List (DictDataPair (Slot P))) :
    vals (front ++ back) = vals front + vals back := by
  simp [vals]

theorem dictPut_leftVals {d : Dict (Slot P)} (pos : 0 < d.maxCount) (key : CString) (slot : Slot P) :
    leftVals (dictPut d key slot).2 =
      leftVals d + storedBy (.put key slot, .put (dictPut d key slot).1) := by
  unfold dictPut
  cases find : dictFind d key with
  | some found => simp [storedBy]
  | none =>
      have grown := Chain.sum_update vals d.members (dictIndex_lt d key pos)
        (⟨key, slot⟩ :: d.members (dictIndex d key))
      rw [vals_cons, ← add_assoc] at grown
      exact add_right_cancel grown

theorem dictDel_leftVals {d : Dict (Slot P)} (pos : 0 < d.maxCount) (key : CString) :
    leftVals (dictDel d key).2.2 + handedBy (.del key, .del (dictDel d key).1 (dictDel d key).2.1) =
      leftVals d := by
  unfold dictDel
  cases find : dictFind d key with
  | none => simp [handedBy]
  | some found =>
      have split : d.members (dictIndex d key) = found.before ++ found.here :: found.after := by
        unfold dictFind at find
        split_ifs at find
        exact (Chain.search_eq_some.mp find).1
      have shrunk := Chain.sum_update vals d.members (dictIndex_lt d key pos)
        (found.before ++ found.after)
      have moved : vals (d.members (dictIndex d key)) =
          {found.here.val.val} + vals (found.before ++ found.after) := by
        rw [split, vals_append, vals_append, vals_cons, add_left_comm]
      rw [moved, ← add_assoc] at shrunk
      exact add_right_cancel shrunk

theorem slotStep_maxCount {d d' : Dict (Slot P)} {call : DictCall (Slot P)}
    {reply : DictReply (Slot P)} (step : slotStep d call reply d') : d'.maxCount = d.maxCount := by
  cases call with
  | put key slot =>
      cases step
      unfold dictPut
      cases dictFind d key <;> rfl
  | get key =>
      cases step
      rfl
  | del key =>
      cases step
      unfold dictDel
      cases dictFind d key <;> rfl

-- One step moves values between the callers, the table and the free function, and loses none.
theorem slotStep_ledger {d d' : Dict (Slot P)} {call : DictCall (Slot P)}
    {reply : DictReply (Slot P)} (pos : 0 < d.maxCount) (step : slotStep d call reply d') :
    handedBy (call, reply) + leftVals d' = leftVals d + storedBy (call, reply) := by
  cases call with
  | put key slot =>
      cases step
      have grown := dictPut_leftVals pos key slot
      simpa [handedBy] using grown
  | get key =>
      cases step
      simp [handedBy, storedBy]
  | del key =>
      cases step
      have shrunk := dictDel_leftVals pos key
      rw [add_comm]
      simpa [storedBy] using shrunk

theorem run_ledger {d d' : Dict (Slot P)} {history : List (DictCall (Slot P) × DictReply (Slot P))}
    (run : Run slotStep d history d') (pos : 0 < d.maxCount) :
    handedVals history + leftVals d' = leftVals d + storedVals history := by
  induction run with
  | nil d => simp [handedVals, storedVals]
  | cons step _ ih =>
      have later := ih (by rw [slotStep_maxCount step]; exact pos)
      have now := slotStep_ledger pos step
      simp only [handedVals, storedVals, List.map_cons, List.sum_cons] at later ⊢
      rw [add_assoc, later, ← add_assoc, now, add_assoc]

theorem coe_flatMap_range (n : Nat) (f : Nat → List P) :
    ((List.range n).flatMap f : Multiset P) = ∑ i ∈ Finset.range n, (f i : Multiset P) := by
  induction n with
  | zero => rfl
  | succ n ih =>
      rw [List.range_succ, List.flatMap_append, Finset.sum_range_succ, ← Multiset.coe_add, ih,
        List.flatMap_singleton]

theorem dictDeinitFreed_eq (d : Dict (Slot P)) :
    (dictDeinitFreed d : Multiset P) = visitedAddrs d := by
  rw [dictDeinitFreed, coe_flatMap_range, visitedAddrs, Finset.sum_filter]
  apply Finset.sum_congr rfl
  intro i _
  split <;> rfl

theorem mem_leftVals {d : Dict (Slot P)} {p : P} :
    p ∈ leftVals d ↔ ∃ i < d.maxCount, ∃ dp ∈ d.members i, dp.val.val = p := by
  simp [leftVals, Multiset.mem_sum]

theorem mem_visitedAddrs {d : Dict (Slot P)} {p : P} (visited : p ∈ visitedAddrs d) :
    ∃ i < d.maxCount, ∃ dp ∈ d.members i, dp.val.addr = p := by
  simp only [visitedAddrs, Multiset.mem_sum, Finset.mem_filter, Finset.mem_range, Multiset.mem_coe,
    List.mem_map] at visited
  obtain ⟨i, ⟨inside, _⟩, dp, member, same⟩ := visited
  exact ⟨i, inside, dp, member, same⟩

/-- No value in the table is the address of one of the table's own slots. -/
def Separate (d : Dict (Slot P)) : Prop :=
  ∀ i < d.maxCount, ∀ dp ∈ d.members i, ∀ j < d.maxCount, ∀ other ∈ d.members j,
    other.val.addr ≠ dp.val.val

theorem disposed_iff {maxCount : Nat} {hashFn : CString → UInt32} {d : Dict (Slot P)}
    {history : List (DictCall (Slot P) × DictReply (Slot P))} (pos : 0 < maxCount)
    (run : Run slotStep (dictCreate maxCount hashFn) history d) :
    Disposed history d ↔ visitedAddrs d = leftVals d := by
  have ledger := run_ledger run pos
  have fresh : leftVals (dictCreate maxCount hashFn : Dict (Slot P)) = 0 := by
    simp [leftVals, dictCreate, dictInit]
  rw [fresh, zero_add] at ledger
  rw [Disposed, dictDeinitFreed_eq, ← ledger]
  exact add_right_inj _

theorem dict_disposal {maxCount : Nat} {hashFn : CString → UInt32} {d : Dict (Slot P)}
    {history : List (DictCall (Slot P) × DictReply (Slot P))} (pos : 0 < maxCount)
    (run : Run slotStep (dictCreate maxCount hashFn) history d) :
    (Disposed history d ↔ visitedAddrs d = leftVals d) ∧
      (Separate d → (Disposed history d ↔ ∀ i < d.maxCount, d.members i = [])) := by
  have disposed := disposed_iff pos run
  refine ⟨disposed, ?_⟩
  intro separate
  rw [disposed]
  constructor
  · intro same i inside
    by_contra entries
    obtain ⟨dp, member⟩ := List.exists_mem_of_ne_nil _ entries
    have value : dp.val.val ∈ visitedAddrs d := by
      rw [same]
      exact mem_leftVals.mpr ⟨i, inside, dp, member, rfl⟩
    obtain ⟨j, within, other, there, address⟩ := mem_visitedAddrs value
    exact separate i inside dp member j within other there address
  · intro empty
    have noVals : leftVals d = 0 := by
      apply Finset.sum_eq_zero
      intro i inside
      rw [empty i (Finset.mem_range.mp inside)]
      rfl
    have noAddrs : visitedAddrs d = 0 := by
      apply Finset.sum_eq_zero
      intro i inside
      rw [empty i (Finset.mem_range.mp (Finset.mem_filter.mp inside).1)]
      rfl
    rw [noVals, noAddrs]

theorem dict_disposal_deleted : ∃ d,
    Run slotStep (dictCreate 1 fun _ => 0) [(.put keyA ⟨1000, 8⟩, .put (some ⟨1000, 8⟩)),
      (.del keyA, .del 0 (some ⟨1000, 8⟩))] d ∧
    Disposed [(.put keyA ⟨1000, 8⟩, .put (some ⟨1000, 8⟩)),
      (.del keyA, .del 0 (some (⟨1000, 8⟩ : Slot Nat)))] d := by
  have run : Run slotStep (dictCreate 1 fun _ => 0) [(.put keyA ⟨1000, 8⟩, .put (some ⟨1000, 8⟩)),
      (.del keyA, .del 0 (some ⟨1000, 8⟩))] _ := .cons rfl (.single rfl)
  exact ⟨_, run, (dict_disposal (by decide) run).1.mpr rfl⟩

theorem dict_deinit_hands_slot : ∃ d,
    Run slotStep (dictCreate 1 fun _ => 0) [(.put keyA ⟨1000, 8⟩, .put (some ⟨1000, 8⟩))] d ∧
    ¬ Disposed [(.put keyA (⟨1000, 8⟩ : Slot Nat), .put (some ⟨1000, 8⟩))] d := by
  refine ⟨_, .single rfl, ?_⟩
  intro disposed
  have same : ({8} : Multiset Nat) = {1000} := disposed
  exact absurd (Multiset.singleton_inj.mp same) (by decide)

end SampleFs.Proof.Dict

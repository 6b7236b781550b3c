import SampleFs.Metaserver.Dict
import SampleFs.Lib.Trace

namespace SampleFs.Proof.Dict
open Lib Metaserver

variable {V : Type}

def entries (d : Dict V) : Nat := Chain.total d.maxCount d.members

structure Valid (d : Dict V) : Prop where
  pos : 0 < d.maxCount
  counted : ∀ i, d.memberCount i = (d.members i).length
  placed : ∀ i, ∀ pair ∈ d.members i, dictIndex d pair.key = i
  distinct : ∀ i, ((d.members i).map DictDataPair.key).Nodup
  total : d.count = entries d

theorem dictCreate_valid {maxCount : Nat} (pos : 0 < maxCount) (hashFn : CString → UInt32) :
    Valid (dictCreate maxCount hashFn : Dict V) where
  pos := pos
  counted := by simp [dictCreate, dictInit]
  placed := by simp [dictCreate, dictInit]
  distinct := by simp [dictCreate, dictInit]
  total := by simp [dictCreate, dictInit, entries, Chain.total]

/-- Every pair whose key properly extends `key` stands behind the pair of `key` itself. -/
def Unshadowed (d : Dict V) (key : CString) : Prop :=
  ∀ before pair after, d.members (dictIndex d key) = before ++ pair :: after →
    key.bytes <+: pair.key.bytes → pair.key ≠ key → ∃ own ∈ before, own.key = key

theorem unshadowed_of_forall {d : Dict V} {key : CString}
    (alone : ∀ pair ∈ d.members (dictIndex d key), key.bytes <+: pair.key.bytes → pair.key = key) :
    Unshadowed d key := by
  intro before pair after split extends' different
  exact absurd (alone pair (by simp [split]) extends') different

theorem dictFind_eq_none {d : Dict V} (valid : Valid d) (key : CString) :
    dictFind d key = none ↔
      ∀ pair ∈ d.members (dictIndex d key), ¬ key.bytes <+: pair.key.bytes := by
  unfold dictFind
  rw [valid.counted]
  split_ifs with filled
  · simp only [Chain.search_eq_none, decide_eq_false_iff_not, strncmp_strlen]
  · have empty : d.members (dictIndex d key) = [] := List.eq_nil_of_length_eq_zero (by omega)
    simp [empty]

theorem dictFind_eq_some {d : Dict V} (valid : Valid d) (key : CString)
    {found : Chain.Found (DictDataPair V)} :
    dictFind d key = some found ↔
      d.members (dictIndex d key) = found.before ++ found.here :: found.after ∧
        key.bytes <+: found.here.key.bytes ∧
        ∀ pair ∈ found.before, ¬ key.bytes <+: pair.key.bytes := by
  unfold dictFind
  rw [valid.counted]
  split_ifs with filled
  · simp only [Chain.search_eq_some, decide_eq_true_eq, decide_eq_false_iff_not, strncmp_strlen]
  · have empty : d.members (dictIndex d key) = [] := List.eq_nil_of_length_eq_zero (by omega)
    simp [empty]

theorem dictFind_own {d : Dict V} (valid : Valid d) {key : CString} (unshadowed : Unshadowed d key)
    {found : Chain.Found (DictDataPair V)} (stops : dictFind d key = some found) :
    found.here.key = key := by
  obtain ⟨split, begins, misses⟩ := (dictFind_eq_some valid key).mp stops
  by_contra different
  obtain ⟨own, member, same⟩ := unshadowed _ _ _ split begins different
  exact misses own member (by rw [same])

theorem dictFind_absent {d : Dict V} (valid : Valid d) {key : CString}
    (unshadowed : Unshadowed d key) :
    dictFind d key = none ↔ ∀ pair ∈ d.members (dictIndex d key), pair.key ≠ key := by
  rw [dictFind_eq_none valid]
  constructor
  · intro misses pair member same
    exact misses pair member (by rw [same])
  · intro absent pair member begins
    obtain ⟨before, after, split⟩ := List.append_of_mem member
    obtain ⟨own, inBefore, same⟩ := unshadowed _ _ _ split begins (absent pair member)
    exact absent own (by simp [split, inBefore]) same

theorem unshadowed_of_own {d : Dict V} (valid : Valid d) {key : CString}
    (own : ∀ found, dictFind d key = some found → found.here.key = key) : Unshadowed d key := by
  intro before pair after split begins different
  cases find : dictFind d key with
  | none => exact absurd begins ((dictFind_eq_none valid key).mp find pair (by simp [split]))
  | some found =>
      obtain ⟨split', _, misses⟩ := (dictFind_eq_some valid key).mp find
      have same := own found find
      refine ⟨found.here, Chain.Found.mem_before split' misses split begins ?_, same⟩
      intro here
      exact different (here ▸ same)

theorem addOne_eq {n : Nat} (room : n + 1 < 2 ^ 32) : addOne n = n + 1 := if_neg room.ne

theorem subOne_eq (n : Nat) : subOne (n + 1) = n := if_neg (Nat.succ_ne_zero n)

/-! ## Each operation keeps the table valid -/

theorem Valid.replace {d : Dict V} (valid : Valid d) {index counter count : Nat}
    {chain : List (DictDataPair V)} (counted : counter = chain.length)
    (placed : ∀ pair ∈ chain, dictIndex d pair.key = index)
    (distinct : (chain.map DictDataPair.key).Nodup)
    (total : count = Chain.total d.maxCount (Function.update d.members index chain)) :
    Valid { d with
      members := Function.update d.members index chain
      memberCount := Function.update d.memberCount index counter
      count := count } where
  pos := valid.pos
  counted := by
    intro i
    by_cases here : i = index
    · subst here
      simp only [Function.update_self, counted]
    · simp only [Function.update_of_ne here, valid.counted]
  placed := by
    intro i pair member
    by_cases here : i = index
    · subst here
      simp only [Function.update_self] at member
      exact placed pair member
    · simp only [Function.update_of_ne here] at member
      exact valid.placed i pair member
  distinct := by
    intro i
    by_cases here : i = index
    · subst here
      simpa only [Function.update_self] using distinct
    · simpa only [Function.update_of_ne here] using valid.distinct i
  total := total

theorem dictPut_valid {d : Dict V} (valid : Valid d) (key : CString) (val : V)
    (room : entries (dictPut d key val).2 < 2 ^ 32) : Valid (dictPut d key val).2 := by
  unfold dictPut at room ⊢
  cases find : dictFind d key with
  | some found => exact valid
  | none =>
      simp only [find, entries] at room ⊢
      have inside := dictIndex_lt d key valid.pos
      have fresh : ∀ pair ∈ d.members (dictIndex d key), pair.key ≠ key := by
        intro pair member same
        exact (dictFind_eq_none valid key).mp find pair member (by rw [same])
      have grown := Chain.total_update d.members inside (⟨key, val⟩ :: d.members (dictIndex d key))
      have small := Chain.length_le_total d.members inside
      rw [List.length_cons] at grown
      apply valid.replace
      · rw [valid.counted, addOne_eq (by omega), List.length_cons]
      · intro pair member
        rcases List.mem_cons.mp member with rfl | member
        · rfl
        · exact valid.placed _ pair member
      · rw [List.map_cons, List.nodup_cons]
        refine ⟨?_, valid.distinct _⟩
        intro member
        obtain ⟨pair, inChain, same⟩ := List.mem_map.mp member
        exact fresh pair inChain same
      · rw [valid.total, entries, addOne_eq (by omega)]
        omega

theorem dictDel_valid {d : Dict V} (valid : Valid d) (key : CString) :
    Valid (dictDel d key).2.2 := by
  unfold dictDel
  cases find : dictFind d key with
  | none => exact valid
  | some found =>
      have inside := dictIndex_lt d key valid.pos
      obtain ⟨split, _, _⟩ := (dictFind_eq_some valid key).mp find
      have shrunk := Chain.total_update d.members inside (found.before ++ found.after)
      have small := Chain.length_le_total d.members inside
      have kept : (found.before ++ found.after).Sublist (d.members (dictIndex d key)) := by
        rw [split]
        exact (List.Sublist.refl _).append (List.sublist_cons_self _ _)
      have shorter : (d.members (dictIndex d key)).length =
          (found.before ++ found.after).length + 1 := by
        rw [split, List.length_append, List.length_append, List.length_cons, Nat.add_assoc]
      apply valid.replace
      · rw [valid.counted, shorter, subOne_eq]
      · intro pair member
        exact valid.placed _ pair (kept.subset member)
      · exact (valid.distinct _).sublist (kept.map _)
      · obtain ⟨others, split⟩ : ∃ n, entries d = n + 1 := ⟨entries d - 1, by unfold entries; omega⟩
        rw [valid.total, split, subOne_eq]
        unfold entries at split
        omega

/-! ## What the operations do to the pairs -/

theorem mem_dictPut {d : Dict V} {key : CString} {val : V} {i : Nat} {pair : DictDataPair V}
    (member : pair ∈ (dictPut d key val).2.members i) :
    pair ∈ d.members i ∨ pair = ⟨key, val⟩ := by
  unfold dictPut at member
  cases find : dictFind d key with
  | some found => exact .inl (by simpa [find] using member)
  | none =>
      simp only [find] at member
      by_cases here : i = dictIndex d key
      · subst here
        rw [Function.update_self] at member
        rcases List.mem_cons.mp member with rfl | member
        · exact .inr rfl
        · exact .inl member
      · rw [Function.update_of_ne here] at member
        exact .inl member

theorem mem_of_mem_dictDel {d : Dict V} (valid : Valid d) {key : CString} {i : Nat} {pair : DictDataPair V}
    (member : pair ∈ (dictDel d key).2.2.members i) : pair ∈ d.members i := by
  unfold dictDel at member
  cases find : dictFind d key with
  | none => simpa [find] using member
  | some found =>
      simp only [find] at member
      by_cases here : i = dictIndex d key
      · subst here
        rw [Function.update_self] at member
        rw [((dictFind_eq_some valid key).mp find).1]
        rcases List.mem_append.mp member with member | member <;> simp [member]
      · rwa [Function.update_of_ne here] at member

theorem mem_dictDel {d : Dict V} (valid : Valid d) (key : CString) {i : Nat} {pair : DictDataPair V}
    (member : pair ∈ d.members i) :
    pair ∈ (dictDel d key).2.2.members i ∨ ∃ found, dictFind d key = some found ∧ pair = found.here := by
  unfold dictDel
  cases find : dictFind d key with
  | none => exact .inl member
  | some found =>
      by_cases here : i = dictIndex d key
      · subst here
        rw [((dictFind_eq_some valid key).mp find).1] at member
        simp only [Function.update_self]
        rcases List.mem_append.mp member with before | rest
        · exact .inl (by simp [before])
        · rcases List.mem_cons.mp rest with rfl | after
          · exact .inr ⟨found, rfl, rfl⟩
          · exact .inl (by simp [after])
      · simp only [Function.update_of_ne here]
        exact .inl member

theorem dictDel_removes {d : Dict V} (valid : Valid d) {key : CString}
    {found : Chain.Found (DictDataPair V)} (stops : dictFind d key = some found) {i : Nat}
    {pair : DictDataPair V} (member : pair ∈ (dictDel d key).2.2.members i) :
    pair.key ≠ found.here.key := by
  intro same
  obtain ⟨split, _, _⟩ := (dictFind_eq_some valid key).mp stops
  have bucket : i = dictIndex d key := by
    rw [← valid.placed i pair (mem_of_mem_dictDel valid member), same]
    exact valid.placed _ _ (by simp [split])
  subst bucket
  have nodup := valid.distinct (dictIndex d key)
  rw [split, List.map_append, List.map_cons, List.nodup_append, List.nodup_cons] at nodup
  simp only [dictDel, stops, Function.update_self, List.mem_append] at member
  rcases member with member | member
  · exact nodup.2.2 pair.key (List.mem_map_of_mem member) found.here.key (by simp) same
  · exact nodup.2.1.1 (same ▸ List.mem_map_of_mem member)

theorem entries_dictPut_le {d : Dict V} (valid : Valid d) (key : CString) (val : V) :
    entries (dictPut d key val).2 ≤ entries d + 1 := by
  unfold dictPut
  cases find : dictFind d key with
  | some found => exact Nat.le_succ _
  | none =>
      have grown := Chain.total_update d.members (dictIndex_lt d key valid.pos)
        (⟨key, val⟩ :: d.members (dictIndex d key))
      rw [List.length_cons] at grown
      simp only [entries]
      omega

theorem entries_dictDel_le {d : Dict V} (valid : Valid d) (key : CString) :
    entries (dictDel d key).2.2 ≤ entries d := by
  unfold dictDel
  cases find : dictFind d key with
  | none => exact le_rfl
  | some found =>
      have shrunk := Chain.total_update d.members (dictIndex_lt d key valid.pos)
        (found.before ++ found.after)
      rw [((dictFind_eq_some valid key).mp find).1] at shrunk
      simp only [List.length_append, List.length_cons] at shrunk
      simp only [entries]
      omega

end SampleFs.Proof.Dict

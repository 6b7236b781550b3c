import SampleFs.Base.Utils

namespace SampleFs.Proof.Utils
open Lib Base

section Split
variable {buf : List UInt8} {delimit : UInt8}

theorem splitPass_skips {text : List UInt8} (absent : delimit ∉ text) (i : Nat) (s : SplitState) :
    (text.zipIdx i).foldlM (splitPass buf delimit) s = .ok s := by
  apply Exec.foldlM_stays
  rintro ⟨c, place⟩ member
  have ne : c ≠ delimit := fun same => absent (same ▸ List.fst_mem_of_mem_zipIdx member)
  rw [splitPass, if_neg ne]
  rfl

theorem strncpy_fits {src : List UInt8} {n : Nat} (enough : n ≤ src.length) :
    strncpy (List.replicate (n + 1) 0) src n = .ok (src.take n ++ [0]) := by
  have none : n - src.length = 0 := by omega
  have left : List.drop n (List.replicate (n + 1) (0 : UInt8)) = [0] := by
    rw [List.drop_replicate, Nat.add_sub_cancel_left]
    rfl
  simp [strncpy, Exec.check, none, left]

theorem splitPass_first {before after : List UInt8} (cut : buf = before ++ delimit :: after) :
    splitPass buf delimit { tmp := [], k := 0 } (delimit, before.length) =
      .ok { tmp := [before ++ [0]], k := before.length + 1 } := by
  have taken : buf.take before.length = before := by rw [cut, List.take_left' rfl]
  have enough : before.length ≤ buf.length := by
    rw [cut, List.length_append]
    omega
  have copies := strncpy_fits enough
  rw [taken] at copies
  simp [splitPass, Exec.check, stringSplitMaxCount, copies, putByte]

-- Every later terminator lies beyond its piece, which starts after the first delimiter.
theorem splitPass_later {s : SplitState} {i : Nat} (started : 0 < s.k) (le : s.k ≤ i)
    (inside : i ≤ buf.length) : splitPass buf delimit s (delimit, i) = .fail .outOfBounds := by
  have copies := strncpy_fits (show i - s.k ≤ (buf.drop s.k).length by
    rw [List.length_drop]
    omega)
  have beyond : ¬ i < ((buf.drop s.k).take (i - s.k) ++ [0]).length := by
    simp only [List.length_append, List.length_take, List.length_drop, List.length_singleton]
    omega
  simp only [splitPass, if_true, copies, Exec.ok_bind, putByte]
  rw [Exec.check_neg _ beyond]
  by_cases room : s.tmp.length < stringSplitMaxCount
  · rw [Exec.check_pos _ room]
    rfl
  · rw [Exec.check_neg _ room]
    rfl

end Split

theorem strdup_terminated {text : List UInt8} (noNul : 0 ∉ text) :
    strdup (text ++ [0]) = .ok text := by
  have whole : (text ++ [0]).takeWhile (· ≠ 0) = text := by
    rw [List.takeWhile_append_of_pos]
    · simp
    · intro c member
      simp only [ne_eq, decide_not, Bool.not_eq_true', decide_eq_false_iff_not]
      exact fun zero => noNul (zero ▸ member)
  rw [strdup, whole, Exec.check_pos _ (by simp)]
  rfl

theorem stringSplit_uncut {buf : CString} {delimit : UInt8} (absent : delimit ∉ buf.bytes)
    (target : SplitTarget) : stringSplit (some buf) delimit (some target) = .ok (0, some target) := by
  simp only [stringSplit, splitPass_skips absent, Exec.ok_bind]
  simp [splitLast]

section Cut
variable {buf : CString} {delimit : UInt8} {before after : List UInt8}
  (cut : buf.bytes = before ++ delimit :: after) (first : delimit ∉ before)
include cut

include first in
theorem splitPass_runs :
    buf.bytes.zipIdx.foldlM (splitPass buf.bytes delimit) { tmp := [], k := 0 } =
      (after.zipIdx (before.length + 1)).foldlM (splitPass buf.bytes delimit)
        { tmp := [before ++ [0]], k := before.length + 1 } := by
  have places : buf.bytes.zipIdx =
      before.zipIdx ++ (delimit, before.length) :: after.zipIdx (before.length + 1) := by
    rw [cut, List.zipIdx_append, List.zipIdx_cons, Nat.zero_add]
  rw [places, List.foldlM_append, splitPass_skips first, Exec.ok_bind, List.foldlM_cons,
    splitPass_first cut, Exec.ok_bind]

theorem splitLast_after :
    splitLast buf.bytes { tmp := [before ++ [0]], k := before.length + 1 } =
      .ok (if after = [] then [before ++ [0]] else [before ++ [0], after ++ [0]]) := by
  have length : buf.bytes.length = before.length + 1 + after.length := by
    rw [cut, List.length_append, List.length_cons]
    omega
  by_cases none : after = []
  · have ends : ¬ before.length + 1 < buf.bytes.length := by simp [length, none]
    simp [splitLast, none, ends]
  · have more : before.length + 1 < buf.bytes.length := by
      have := List.length_pos_iff.mpr none
      omega
    have rest : buf.bytes.drop (before.length + 1) = after := by
      rw [cut, List.drop_append, List.drop_eq_nil_of_le (Nat.le_succ _)]
      simp
    have size : buf.bytes.length - (before.length + 1) = after.length := by omega
    have copies := strncpy_fits (Nat.le_refl after.length)
    rw [List.take_length] at copies
    simp [splitLast, more, rest, size, copies, none, Exec.check, stringSplitMaxCount]

include first in
theorem stringSplit_once (only : delimit ∉ after) (target : SplitTarget) :
    stringSplit (some buf) delimit (some target) = .ok (0, some
      { ptr := some (if after = [] then [before] else [before, after])
        count := if after = [] then 1 else 2 }) := by
  have clean : 0 ∉ before ∧ 0 ∉ after := by
    have noNul := buf.noNul
    rw [cut] at noNul
    simp only [List.mem_append, List.mem_cons, not_or] at noNul
    exact ⟨noNul.1, noNul.2.2⟩
  simp only [stringSplit, splitPass_runs cut first, splitPass_skips only, splitLast_after cut,
    Exec.ok_bind]
  by_cases none : after = []
  · simp [none, strdup_terminated clean.1]
  · simp [none, strdup_terminated clean.1, strdup_terminated clean.2]

include first in
theorem stringSplit_twice (again : delimit ∈ after) (target : SplitTarget) :
    stringSplit (some buf) delimit (some target) = .fail .outOfBounds := by
  obtain ⟨middle, rest, split, absent⟩ := List.eq_append_cons_of_mem again
  have places : after.zipIdx (before.length + 1) = middle.zipIdx (before.length + 1) ++
      (delimit, before.length + 1 + middle.length) ::
        rest.zipIdx (before.length + 1 + middle.length + 1) := by
    rw [split, List.zipIdx_append, List.zipIdx_cons]
  have inside : before.length + 1 + middle.length ≤ buf.bytes.length := by
    rw [cut, split]
    simp only [List.length_append, List.length_cons]
    omega
  have fails := @splitPass_later buf.bytes delimit
    { tmp := [before ++ [0]], k := before.length + 1 } _ (Nat.succ_pos _)
    (Nat.le_add_right _ middle.length) inside
  simp only [stringSplit, splitPass_runs cut first, places, List.foldlM_append, List.foldlM_cons,
    splitPass_skips absent, Exec.ok_bind, fails, Exec.fail_bind]

end Cut

theorem split_cases (buf : CString) (delimit : UInt8) : delimit ∉ buf.bytes ∨
    ∃ before after, buf.bytes = before ++ delimit :: after ∧ delimit ∉ before := by
  by_cases occurs : delimit ∈ buf.bytes
  · obtain ⟨before, after, cut, first⟩ := List.eq_append_cons_of_mem occurs
    exact .inr ⟨before, after, cut, first⟩
  · exact .inl occurs

theorem count_cut {delimit : UInt8} {before after : List UInt8} (first : delimit ∉ before) :
    (before ++ delimit :: after).count delimit = after.count delimit + 1 := by
  rw [List.count_append, List.count_eq_zero_of_not_mem first, List.count_cons_self, Nat.zero_add]

theorem string_split_in_bounds (buf : CString) (delimit : UInt8) (target : SplitTarget) :
    (∃ result, stringSplit (some buf) delimit (some target) = .ok result) ↔
      buf.bytes.count delimit ≤ 1 := by
  rcases split_cases buf delimit with absent | ⟨before, after, cut, first⟩
  · rw [List.count_eq_zero_of_not_mem absent]
    exact iff_of_true ⟨_, stringSplit_uncut absent target⟩ (Nat.zero_le 1)
  · rw [cut, count_cut first]
    by_cases again : delimit ∈ after
    · have more := List.count_pos_iff.mpr again
      refine iff_of_false ?_ (by omega)
      rw [stringSplit_twice cut first again]
      rintro ⟨result, returns⟩
      cases returns
    · rw [List.count_eq_zero_of_not_mem again]
      exact iff_of_true ⟨_, stringSplit_once cut first again target⟩ (Nat.le_refl 1)

theorem string_split_overruns : ∃ buf : CString, buf.bytes = [97, 58, 98, 58, 99] ∧
    ¬ ∃ result, stringSplit (some buf) 58 (some { ptr := none, count := 0 }) = .ok result := by
  refine ⟨⟨[97, 58, 98, 58, 99], by decide⟩, rfl, ?_⟩
  rintro ⟨result, returns⟩
  have fails := @stringSplit_twice ⟨[97, 58, 98, 58, 99], by decide⟩ 58 [97] [98, 58, 99] rfl
    (by decide) (by decide) { ptr := none, count := 0 }
  cases fails.symm.trans returns

/-- The pieces have no delimiter in them and give the string back when joined by it, whatever
`*ptr` and `*count` held before. -/
def Splits (buf : CString) (delimit : UInt8) : Prop :=
  ∀ target, ∃ pieces, stringSplit (some buf) delimit (some target) =
      .ok (0, some { ptr := some pieces, count := pieces.length }) ∧
    pieces ≠ [] ∧ (∀ piece ∈ pieces, delimit ∉ piece) ∧ [delimit].intercalate pieces = buf.bytes

theorem string_split_splits (buf : CString) (delimit : UInt8) :
    Splits buf delimit ↔
      buf.bytes.count delimit = 1 ∧ buf.bytes.getLast? ≠ some delimit := by
  rcases split_cases buf delimit with absent | ⟨before, after, cut, first⟩
  · rw [List.count_eq_zero_of_not_mem absent]
    refine iff_of_false ?_ (by simp)
    intro splits
    obtain ⟨pieces, returns, _⟩ := splits { ptr := none, count := 0 }
    rw [stringSplit_uncut absent] at returns
    cases returns
  · rw [cut, count_cut first]
    by_cases again : delimit ∈ after
    · have more := List.count_pos_iff.mpr again
      refine iff_of_false ?_ (by omega)
      intro splits
      obtain ⟨pieces, returns, _⟩ := splits { ptr := none, count := 0 }
      rw [stringSplit_twice cut first again] at returns
      cases returns
    · have once := stringSplit_once cut first again
      rw [List.count_eq_zero_of_not_mem again]
      by_cases ended : after = []
      · refine iff_of_false ?_ (by simp [ended])
        intro splits
        obtain ⟨pieces, returns, _, _, joined⟩ := splits { ptr := none, count := 0 }
        simp only [once, ended, if_true, Exec.ok.injEq, Prod.mk.injEq, Option.some.injEq,
          SplitTarget.mk.injEq, true_and] at returns
        rw [← returns.1, cut, ended] at joined
        simp at joined
      · refine iff_of_true ?_ ⟨rfl, ?_⟩
        · intro target
          refine ⟨[before, after], by simp [once, ended], by simp, ?_, by simp [cut]⟩
          simp [first, again]
        · rw [List.getLast?_append_of_ne_nil _ (List.cons_ne_nil _ _),
            List.getLast?_cons_of_ne_nil ended]
          intro last
          exact again (List.mem_of_getLast? last)

theorem string_split_drops : ∃ buf : CString, buf.bytes = [97] ∧ ¬ Splits buf 58 := by
  refine ⟨⟨[97], by decide⟩, rfl, ?_⟩
  intro splits
  obtain ⟨pieces, returns, _⟩ := splits { ptr := none, count := 0 }
  rw [stringSplit_uncut (by decide)] at returns
  cases returns

end SampleFs.Proof.Utils

import Mathlib.Tactic.Common

/-!
# Circular lists in a store

Cells that point to each other, read through a partial successor function. A ring is a path from its
first cell back to it; inserting behind the first cell and turning the ring are both splices of paths.
-/

namespace SampleFs.Lib
variable {ι : Type} {next next' : ι → Option ι}

/-- From `a` the successors run through the list and then to `b`. -/
def Linked (next : ι → Option ι) : ι → List ι → ι → Prop
  | a, [], b => next a = some b
  | a, x :: rest, b => next a = some x ∧ Linked next x rest b

def Ring (next : ι → Option ι) : List ι → Prop
  | [] => True
  | first :: rest => Linked next first rest first

namespace Linked

theorem append {a b c : ι} {front back : List ι} :
    Linked next a (front ++ b :: back) c ↔ Linked next a front b ∧ Linked next b back c := by
  induction front generalizing a with
  | nil => exact Iff.rfl
  | cons x front ih =>
      rw [List.cons_append, Linked, Linked, ih, and_assoc]

theorem congr {a b : ι} {items : List ι} (linked : Linked next a items b)
    (same : ∀ x ∈ a :: items, next' x = next x) : Linked next' a items b := by
  induction items generalizing a with
  | nil => exact (same a (by simp)).trans linked
  | cons x rest ih =>
      refine ⟨(same a (by simp)).trans linked.1, ih linked.2 ?_⟩
      intro y member
      exact same y (List.mem_cons_of_mem a member)

end Linked

namespace Ring

theorem congr {items : List ι} (ring : Ring next items) (same : ∀ x ∈ items, next' x = next x) :
    Ring next' items := by
  cases items with
  | nil => trivial
  | cons first rest => exact Linked.congr ring same

theorem rotate {before after : List ι} {x : ι} (ring : Ring next (before ++ x :: after)) :
    Ring next (x :: (after ++ before)) := by
  cases before with
  | nil => simpa using ring
  | cons first before =>
      obtain ⟨front, back⟩ := Linked.append.mp ring
      exact Linked.append.mpr ⟨back, front⟩

theorem next_mem {items : List ι} (ring : Ring next items) {x : ι} (member : x ∈ items) :
    ∃ y ∈ items, next x = some y := by
  obtain ⟨before, after, rfl⟩ := List.append_of_mem member
  have turned := ring.rotate
  cases rest : after ++ before with
  | nil =>
      rw [rest] at turned
      exact ⟨x, member, turned⟩
  | cons y others =>
      rw [rest] at turned
      have inner : y ∈ after ++ before := by
        rw [rest]
        exact List.mem_cons_self
      refine ⟨y, ?_, turned.1⟩
      simp only [List.mem_append, List.mem_cons] at inner ⊢
      tauto

theorem insert {first x : ι} {rest : List ι} (ring : Ring next (first :: rest))
    (takes : next' x = next first) (points : next' first = some x)
    (same : ∀ y ∈ rest, next' y = next y) : Ring next' (x :: (rest ++ [first])) := by
  apply Linked.append.mpr
  refine ⟨?_, points⟩
  cases rest with
  | nil => exact takes.trans ring
  | cons y rest =>
      refine ⟨takes.trans ring.1, ring.2.congr ?_⟩
      exact same

end Ring

end SampleFs.Lib

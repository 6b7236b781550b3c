import SampleFs.Lib.Chain
import SampleFs.Lib.Heap

/-!
# Linked lists in a heap

A cell holds the address of the next one. `Linked` says that the cells of some entries, each at its
address and with its content, follow each other, and the rules say what a write to one cell does to
the list.
-/

namespace SampleFs.Lib

structure Cell (α : Type) where
  next : Option Nat
  content : α
deriving DecidableEq, Repr

namespace LinkedList
variable {ι α : Type} (address : ι → Nat) (content : ι → α)

def head : List ι → Option Nat
  | [] => none
  | entry :: _ => some (address entry)

def Linked (cell : Nat → Option (Cell α)) : List ι → Prop
  | [] => True
  | entry :: rest => cell (address entry) = some ⟨head address rest, content entry⟩ ∧ Linked cell rest

variable {address content} {cell cell' : Nat → Option (Cell α)}

@[simp] theorem head_cons (entry : ι) (rest : List ι) : head address (entry :: rest) = some (address entry) := rfl

theorem head_append (before rest rest' : List ι) (entry : ι) :
    head address (before ++ entry :: rest) = head address (before ++ entry :: rest') := by
  cases before <;> rfl

theorem Linked.frame {entries : List ι} (same : ∀ entry ∈ entries, cell' (address entry) = cell (address entry))
    (linked : Linked address content cell entries) : Linked address content cell' entries := by
  induction entries with
  | nil => trivial
  | cons entry rest ih =>
      refine ⟨(same entry List.mem_cons_self).trans linked.1, ih ?_ linked.2⟩
      exact fun other member => same other (List.mem_cons_of_mem entry member)

theorem Linked.rest {before after : List ι} (linked : Linked address content cell (before ++ after)) :
    Linked address content cell after := by
  induction before with
  | nil => exact linked
  | cons entry before ih => exact ih linked.2

theorem Linked.here {before after : List ι} {entry : ι}
    (linked : Linked address content cell (before ++ entry :: after)) :
    cell (address entry) = some ⟨head address after, content entry⟩ :=
  linked.rest.1

/-- The cell before an entry gets the entry's successor, and the entry is out of the list. -/
theorem Linked.unlink {before after : List ι} {prev entry : ι}
    (linked : Linked address content cell (before ++ prev :: entry :: after))
    (apart : ∀ other ∈ before ++ after, address other ≠ address prev) :
    Linked address content (Function.update cell (address prev) (some ⟨head address after, content prev⟩))
      (before ++ prev :: after) := by
  induction before with
  | nil =>
      refine ⟨Function.update_self .., linked.2.2.frame ?_⟩
      intro other member
      exact Function.update_of_ne (apart other member) _ _
  | cons first before ih =>
      have other := apart first List.mem_cons_self
      have same : head address (before ++ prev :: entry :: after) = head address (before ++ prev :: after) :=
        head_append before (entry :: after) after prev
      refine ⟨?_, ih linked.2 fun other member => apart other (List.mem_cons_of_mem first member)⟩
      exact (Function.update_of_ne other _ _).trans (same ▸ linked.1)

/-- A loop that goes along a list to its end. -/
theorem returns_walk {ε σ ρ : Type} (body : σ → Exec ε (Pass σ ρ)) (inv : List ι → List ι → σ → Prop) (post : ρ → Prop)
    (pass : ∀ before entry after s, inv before (entry :: after) s →
      ∃ next, body s = .ok (.again next) ∧ inv (before ++ [entry]) after next)
    (ends : ∀ before s, inv before [] s → ∃ result, body s = .ok (.done result) ∧ post result)
    {before after : List ι} {s : σ} (start : inv before after s) :
    ∃ result, Exec.Returns (fun fuel => Exec.loop body fuel s) result ∧ post result := by
  induction after generalizing before s with
  | nil =>
      obtain ⟨result, leaves, meets⟩ := ends before s start
      exact ⟨result, Exec.returns_done leaves, meets⟩
  | cons entry after ih =>
      obtain ⟨next, goes, kept⟩ := pass before entry after s start
      obtain ⟨result, returns, meets⟩ := ih kept
      exact ⟨result, Exec.returns_again goes returns, meets⟩

/-- A loop that goes along a list and leaves at the first match, or behind the last entry. -/
theorem returns_search {ε σ ρ : Type} (body : σ → Exec ε (Pass σ ρ)) (matching : ι → Bool)
    (state : List ι → List ι → σ) (hit : List ι → List ι → ρ) {chain : List ι}
    (pass : ∀ before entry after, chain = before ++ entry :: after → body (state before (entry :: after)) =
      .ok (if matching entry then .done (hit before (entry :: after)) else .again (state (before ++ [entry]) after)))
    (ends : body (state chain []) = .ok (.done (hit chain []))) {before after : List ι}
    (split : chain = before ++ after) :
    Exec.Returns (fun fuel => Exec.loop body fuel (state before after))
      (match Chain.search matching after with
        | some f => hit (before ++ f.before) (f.here :: f.after)
        | none => hit chain []) := by
  induction after generalizing before with
  | nil =>
      rw [List.append_nil] at split
      exact Exec.returns_done (split ▸ ends)
  | cons entry after ih =>
      have goes := pass before entry after split
      cases here : matching entry with
      | true => simpa [Chain.search, here] using Exec.returns_done (by simpa [here] using goes)
      | false =>
          have rest := ih (show chain = (before ++ [entry]) ++ after by simp [split])
          have whole := Exec.returns_again (by simpa [here] using goes) rest
          rw [Chain.search, if_neg (by simp [here])]
          cases found : Chain.search matching after with
          | none => simpa [found] using whole
          | some f => simpa [found] using whole

/-! ## The blocks of several lists -/

def blocks (place : ι → Nat) (size : Nat) (chains : Nat → List ι) : Multiset Nat :=
  ∑ i ∈ Finset.range size, ((chains i).map place : Multiset Nat)

section Blocks
variable {place : ι → Nat} {size i : Nat} {chains : Nat → List ι} {entry : ι} {before after : List ι}

theorem mem_blocks (inside : i < size) (member : entry ∈ chains i) : place entry ∈ blocks place size chains := by
  rw [blocks, Multiset.mem_sum]
  exact ⟨i, Finset.mem_range.mpr inside, Multiset.mem_coe.mpr (List.mem_map_of_mem member)⟩

theorem blocks_eq_zero (empty : ∀ i < size, chains i = []) : blocks place size chains = 0 := by
  apply Finset.sum_eq_zero
  intro i inside
  rw [empty i (Finset.mem_range.mp inside)]
  rfl

theorem blocks_cons (inside : i < size) (entry : ι) :
    blocks place size (Function.update chains i (entry :: chains i)) = place entry ::ₘ blocks place size chains := by
  have grown := Chain.sum_update (fun chain => (chain.map place : Multiset Nat)) chains inside (entry :: chains i)
  rw [List.map_cons, ← Multiset.cons_coe, Multiset.add_cons, ← Multiset.cons_add] at grown
  exact add_right_cancel grown

theorem blocks_remove (inside : i < size) (split : chains i = before ++ entry :: after) :
    place entry ::ₘ blocks place size (Function.update chains i (before ++ after)) = blocks place size chains := by
  have shrunk := Chain.sum_update (fun chain => (chain.map place : Multiset Nat)) chains inside (before ++ after)
  have moved : ((chains i).map place : Multiset Nat) = place entry ::ₘ ((before ++ after).map place : Multiset Nat) := by
    rw [split, Multiset.cons_coe, List.map_append, List.map_append, List.map_cons]
    exact Multiset.coe_eq_coe.mpr List.perm_middle
  rw [moved, Multiset.add_cons, ← Multiset.cons_add] at shrunk
  exact add_right_cancel shrunk

/-- No block stands in two places. -/
theorem blocks_apart (once : (blocks place size chains).Nodup) (inside : i < size)
    (split : chains i = before ++ entry :: after) {j : Nat} (there : j < size) {other : ι}
    (member : other ∈ Function.update chains i (before ++ after) j) : place other ≠ place entry := by
  rw [← blocks_remove inside split, Multiset.nodup_cons] at once
  intro same
  exact once.1 (same ▸ mem_blocks there member)

end Blocks

end LinkedList

end SampleFs.Lib

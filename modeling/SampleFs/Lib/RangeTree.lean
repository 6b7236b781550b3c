import Mathlib.Data.List.Basic
import Mathlib.Order.Basic
import Mathlib.Order.Nat
import Mathlib.Tactic.Common

/-!
# Search trees over ranges

A balanced tree whose leaves list entries that each occupy a range of numbers, and whose inner nodes
list children under the smallest number they are responsible for. The two searches (last key not
above the target, first entry that ends after it) find the entry that covers the target; where none
does, the answer depends on where the gap lies.
-/

namespace SampleFs.Lib

/-- A list whose items occupy successive disjoint parts of `[lo, hi)`, gaps allowed. -/
inductive Parts {τ : Type} (part : Nat → Nat → τ → Prop) : Nat → Nat → List τ → Prop
  | nil {lo hi : Nat} : lo ≤ hi → Parts part lo hi []
  | cons {lo hi a b : Nat} {item : τ} {rest : List τ} :
      lo ≤ a → a < b → part a b item → Parts part b hi rest → Parts part lo hi (item :: rest)

namespace Parts
variable {τ : Type} {part : Nat → Nat → τ → Prop}

theorem le {lo hi : Nat} {items : List τ} (parts : Parts part lo hi items) : lo ≤ hi := by
  induction parts with
  | nil le => exact le
  | cons first nonempty _ _ ih => exact first.trans (nonempty.le.trans ih)

theorem split {lo hi : Nat} {before after : List τ} {item : τ}
    (parts : Parts part lo hi (before ++ item :: after)) :
    ∃ a b, lo ≤ a ∧ a < b ∧ part a b item ∧ Parts part b hi after := by
  induction before generalizing lo with
  | nil =>
      cases parts with
      | cons first nonempty here rest => exact ⟨_, _, first, nonempty, here, rest⟩
  | cons head before ih =>
      cases parts with
      | cons first nonempty _ rest =>
          obtain ⟨a, b, above, less, here, later⟩ := ih rest
          exact ⟨a, b, first.trans (nonempty.le.trans above), less, here, later⟩

theorem mem {lo hi : Nat} {items : List τ} (parts : Parts part lo hi items) {item : τ}
    (member : item ∈ items) : ∃ a b, lo ≤ a ∧ a < b ∧ b ≤ hi ∧ part a b item := by
  obtain ⟨before, after, rfl⟩ := List.append_of_mem member
  obtain ⟨a, b, above, less, here, rest⟩ := parts.split
  exact ⟨a, b, above, less, rest.le, here⟩

end Parts

structure Ranges (κ α : Type) where
  key : κ → Nat
  start : α → Nat
  stop : α → Nat

def RangeTree (κ α : Type) : Nat → Type
  | 0 => List α
  | depth + 1 => List (κ × RangeTree κ α depth)

namespace RangeTree
variable {κ α : Type} (r : Ranges κ α)

def entries : (depth : Nat) → RangeTree κ α depth → List α
  | 0, leaf => leaf
  | depth + 1, kids => List.flatMap (fun kid => entries depth kid.2) kids

def Ordered : (depth lo hi : Nat) → RangeTree κ α depth → Prop
  | 0, lo, hi, leaf => Parts (fun a b entry => a = r.start entry ∧ b = r.stop entry) lo hi leaf
  | depth + 1, lo, hi, kids =>
      Parts (fun a b (kid : κ × RangeTree κ α depth) => a = r.key kid.1 ∧ Ordered depth a b kid.2) lo hi kids

def pick {τ : Type} (target : Nat) : Option (κ × τ) → List (κ × τ) → Option (κ × τ)
  | best, [] => best
  | best, kid :: rest => if r.key kid.1 > target then best else pick target (some kid) rest

/-- The outer `none` stands for a node all of whose keys are above the target. -/
def lookup (target : Nat) : (depth : Nat) → RangeTree κ α depth → Option (Option α)
  | 0, leaf => some (List.find? (fun entry => target < r.stop entry) leaf)
  | depth + 1, kids => (pick r target none kids).bind fun kid => lookup target depth kid.2

/-- The target is reached by the keys and lies behind every entry of the leaf it is led to. -/
def Trails (target : Nat) : (depth : Nat) → RangeTree κ α depth → Prop
  | 0, leaf => List.Forall (fun entry => r.stop entry ≤ target) leaf
  | depth + 1, kids => ∃ (before : List (κ × RangeTree κ α depth)) (kid : κ × RangeTree κ α depth)
      (after : List (κ × RangeTree κ α depth)), kids = before ++ kid :: after ∧ r.key kid.1 ≤ target ∧
        (∀ next ∈ after, target < r.key next.1) ∧ Trails target depth kid.2

def Covered (target : Nat) (entry : α) : Prop := r.start entry ≤ target ∧ target < r.stop entry

variable {r}

theorem mem_entries {depth lo hi : Nat} {tree : RangeTree κ α depth} (ordered : Ordered r depth lo hi tree)
    {entry : α} (member : entry ∈ entries depth tree) :
    lo ≤ r.start entry ∧ r.start entry < r.stop entry ∧ r.stop entry ≤ hi := by
  induction depth generalizing lo hi with
  | zero =>
      obtain ⟨a, b, above, less, below, rfl, rfl⟩ := Parts.mem ordered member
      exact ⟨above, less, below⟩
  | succ depth ih =>
      obtain ⟨kid, listed, inside⟩ := List.mem_flatMap.mp member
      obtain ⟨a, b, above, _, below, _, child⟩ := Parts.mem ordered listed
      obtain ⟨first, less, last⟩ := ih child inside
      exact ⟨above.trans first, less, last.trans below⟩

theorem leaf_covered {lo hi target : Nat} {leaf : List α}
    (parts : Parts (fun a b entry => a = r.start entry ∧ b = r.stop entry) lo hi leaf) {entry : α}
    (member : entry ∈ leaf) (covered : Covered r target entry) :
    leaf.find? (fun other => target < r.stop other) = some entry := by
  induction parts with
  | nil => cases member
  | @cons lo hi a b item rest first nonempty here later ih =>
      cases member with
      | head => simp [covered.2]
      | tail _ behind =>
          obtain ⟨c, d, after, _, _, rfl, rfl⟩ := later.mem behind
          have passed : ¬ target < r.stop item := by
            rw [← here.2]
            exact Nat.not_lt.mpr (after.trans covered.1)
          rw [List.find?_cons_of_neg (by simpa using passed)]
          exact ih behind

theorem leaf_trails {target : Nat} {leaf : List α} :
    leaf.find? (fun entry => target < r.stop entry) = none ↔
      List.Forall (fun entry => r.stop entry ≤ target) leaf := by
  rw [List.find?_eq_none, List.forall_iff_forall_mem]
  simp

theorem pick_eq_some {τ : Type} {lo hi target : Nat} {kids : List (κ × τ)} {range : Nat → Nat → τ → Prop}
    (parts : Parts (fun a b kid => a = r.key kid.1 ∧ range a b kid.2) lo hi kids)
    {best : Option (κ × τ)} {kid : κ × τ} :
    pick r target best kids = some kid ↔
      (∃ before after, kids = before ++ kid :: after ∧ r.key kid.1 ≤ target ∧
        ∀ next ∈ after, target < r.key next.1) ∨
      best = some kid ∧ ∀ next ∈ kids, target < r.key next.1 := by
  induction parts generalizing best with
  | nil => simp [pick]
  | @cons lo hi a b item rest first nonempty here later ih =>
      obtain ⟨rfl, _⟩ := here
      by_cases above : r.key item.1 > target
      · have beyond : ∀ next ∈ rest, target < r.key next.1 := by
          intro next member
          obtain ⟨c, _, after, _, _, rfl, _⟩ := later.mem member
          exact above.trans (nonempty.trans_le after)
        have all : ∀ next ∈ item :: rest, target < r.key next.1 := by
          intro next member
          cases member with
          | head => exact above
          | tail _ behind => exact beyond next behind
        rw [pick, if_pos above]
        constructor
        · intro same
          exact .inr ⟨same, all⟩
        · intro found
          rcases found with ⟨before, after, split, reached, _⟩ | ⟨same, _⟩
          · exact absurd reached (Nat.not_le.mpr (all kid (by simp [split])))
          · exact same
      · rw [pick, if_neg above, ih]
        constructor
        · intro found
          rcases found with ⟨before, after, split, reached, beyond⟩ | ⟨same, beyond⟩
          · exact .inl ⟨item :: before, after, by simp [split], reached, beyond⟩
          · cases same
            exact .inl ⟨[], rest, rfl, Nat.not_lt.mp above, beyond⟩
        · intro found
          rcases found with ⟨before, after, split, reached, beyond⟩ | ⟨_, beyond⟩
          · cases before with
            | nil =>
                cases split
                exact .inr ⟨rfl, beyond⟩
            | cons head before =>
                cases split
                exact .inl ⟨before, after, rfl, reached, beyond⟩
          · exact absurd (beyond item (by simp)) above

theorem pick_mem {τ : Type} {target : Nat} {kids : List (κ × τ)} {best : Option (κ × τ)} {kid : κ × τ}
    (picked : pick r target best kids = some kid) : best = some kid ∨ kid ∈ kids := by
  induction kids generalizing best with
  | nil => exact .inl picked
  | cons item rest ih =>
      rw [pick] at picked
      split at picked
      · exact .inl picked
      · rcases ih picked with same | later
        · cases same
          exact .inr (List.mem_cons_self ..)
        · exact .inr (List.mem_cons_of_mem _ later)

theorem pick_none_eq_some {τ : Type} {lo hi target : Nat} {kids : List (κ × τ)}
    {range : Nat → Nat → τ → Prop}
    (parts : Parts (fun a b kid => a = r.key kid.1 ∧ range a b kid.2) lo hi kids) {kid : κ × τ} :
    pick r target none kids = some kid ↔ ∃ before after, kids = before ++ kid :: after ∧
      r.key kid.1 ≤ target ∧ ∀ next ∈ after, target < r.key next.1 := by
  rw [pick_eq_some parts]
  simp

theorem lookup_covered {depth lo hi target : Nat} {tree : RangeTree κ α depth}
    (ordered : Ordered r depth lo hi tree) {entry : α} (member : entry ∈ entries depth tree)
    (covered : Covered r target entry) : lookup r target depth tree = some (some entry) := by
  induction depth generalizing lo hi with
  | zero => exact congrArg some (leaf_covered ordered member covered)
  | succ depth ih =>
      obtain ⟨kid, listed, inside⟩ := List.mem_flatMap.mp member
      obtain ⟨before, after, apart⟩ := List.append_of_mem listed
      have parts := ordered
      rw [Ordered, apart] at parts
      obtain ⟨a, b, _, _, ⟨rfl, child⟩, rest⟩ := parts.split
      obtain ⟨above, _, below⟩ := mem_entries child inside
      have beyond : ∀ next ∈ after, target < r.key next.1 := by
        intro next later
        obtain ⟨c, _, behind, _, _, rfl, _⟩ := rest.mem later
        exact covered.2.trans_le (below.trans behind)
      have picked := (pick_none_eq_some ordered).mpr ⟨before, after, apart, above.trans covered.1, beyond⟩
      exact Option.bind_eq_some_iff.mpr ⟨kid, picked, ih child inside⟩

theorem lookup_trails {depth lo hi target : Nat} {tree : RangeTree κ α depth}
    (ordered : Ordered r depth lo hi tree) :
    lookup r target depth tree = some none ↔ Trails r target depth tree := by
  induction depth generalizing lo hi with
  | zero => exact Option.some_inj.trans leaf_trails
  | succ depth ih =>
      constructor
      · intro found
        obtain ⟨kid, picked, inside⟩ := Option.bind_eq_some_iff.mp found
        obtain ⟨before, after, split, reached, beyond⟩ := (pick_none_eq_some ordered).mp picked
        obtain ⟨a, b, _, _, _, _, child⟩ := Parts.mem ordered (by simp [split] : kid ∈ _)
        exact ⟨before, kid, after, split, reached, beyond, (ih child).mp inside⟩
      · intro trails
        obtain ⟨before, kid, after, split, reached, beyond, inside⟩ := trails
        obtain ⟨a, b, _, _, _, _, child⟩ := Parts.mem ordered (by simp [split] : kid ∈ _)
        have picked := (pick_none_eq_some ordered).mpr ⟨before, after, split, reached, beyond⟩
        exact Option.bind_eq_some_iff.mpr ⟨kid, picked, (ih child).mpr inside⟩

theorem lookup_mem {depth target : Nat} {tree : RangeTree κ α depth} {entry : α}
    (found : lookup r target depth tree = some (some entry)) :
    entry ∈ entries depth tree ∧ target < r.stop entry := by
  induction depth with
  | zero =>
      have here := Option.some.inj found
      exact ⟨List.mem_of_find?_eq_some here, by simpa using List.find?_some here⟩
  | succ depth ih =>
      obtain ⟨kid, picked, inside⟩ := Option.bind_eq_some_iff.mp found
      obtain ⟨member, less⟩ := ih inside
      have listed := (pick_mem picked).resolve_left (by simp)
      exact ⟨List.mem_flatMap.mpr ⟨kid, listed, member⟩, less⟩

end RangeTree

end SampleFs.Lib

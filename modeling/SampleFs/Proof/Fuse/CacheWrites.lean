import SampleFs.Fuse.DcacheThreads
import SampleFs.Proof.Fuse.CacheOwned

namespace SampleFs.Proof.Fuse
open Lib SampleFs.Fuse

/-! ## Writes to one pointer -/

def relink (d : Dcache) (k : Nat) (siblings : Option Nat) : Dcache :=
  ⟨d.entries.modify k fun entry => { entry with siblings }⟩

def rehead (d : Dcache) (a : Nat) (childs : Option Nat) : Dcache :=
  ⟨d.entries.modify a fun entry => { entry with childs }⟩

section
variable {d : Dcache} {a k : Nat}

theorem store_eq_modify {entry : DcacheEntry} (stored : d.entries[k]? = some entry) (f : DcacheEntry → DcacheEntry) :
    d.store k (f entry) = ⟨d.entries.modify k f⟩ := by
  obtain ⟨inside, rfl⟩ := List.getElem?_eq_some_iff.mp stored
  unfold Dcache.store
  congr 1
  apply List.ext_getElem?
  intro j
  rw [List.getElem?_modify, List.getElem?_set]
  by_cases here : k = j
  · subst here
    simp [inside]
  · simp [here]

theorem entries_relink (siblings : Option Nat) (j : Nat) : (relink d k siblings).entries[j]? =
    (d.entries[j]?).map fun entry => if k = j then { entry with siblings } else entry := by
  rw [relink, List.getElem?_modify]
  split <;> rfl

theorem entries_rehead (childs : Option Nat) (j : Nat) : (rehead d a childs).entries[j]? =
    (d.entries[j]?).map fun entry => if a = j then { entry with childs } else entry := by
  rw [rehead, List.getElem?_modify]
  split <;> rfl

theorem length_relink (siblings : Option Nat) : (relink d k siblings).entries.length = d.entries.length := by
  rw [relink, List.length_modify]

theorem siblingOf_relink (inside : k < d.entries.length) (siblings : Option Nat) (j : Nat) :
    siblingOf (relink d k siblings) j = if k = j then siblings else siblingOf d j := by
  rw [siblingOf, siblingOf, entries_relink]
  by_cases here : k = j
  · subst here
    simp [List.getElem?_eq_getElem inside]
  · simp [here]

theorem childOf_relink (siblings : Option Nat) (b : Nat) : childOf (relink d k siblings) b = childOf d b := by
  rw [childOf, childOf, entries_relink]
  cases d.entries[b]? with
  | none => rfl
  | some entry =>
      by_cases here : k = b
      · simp [here]
      · simp [here]

theorem siblingOf_rehead (childs : Option Nat) (j : Nat) : siblingOf (rehead d a childs) j = siblingOf d j := by
  rw [siblingOf, siblingOf, entries_rehead]
  cases d.entries[j]? with
  | none => rfl
  | some entry =>
      by_cases here : a = j
      · simp [here]
      · simp [here]

theorem childOf_rehead (inside : a < d.entries.length) (childs : Option Nat) :
    childOf (rehead d a childs) a = childs := by
  rw [childOf, entries_rehead, List.getElem?_eq_getElem inside]
  simp

theorem hasName_relink (siblings : Option Nat) (name : List UInt8) (namelen j : Nat) :
    hasName (relink d k siblings) name namelen j = hasName d name namelen j := by
  rw [hasName, hasName, entries_relink]
  cases d.entries[j]? with
  | none => rfl
  | some entry =>
      by_cases here : k = j
      · simp [here, nameMatches]
      · simp [here]

theorem hasName_rehead (childs : Option Nat) (name : List UInt8) (namelen j : Nat) :
    hasName (rehead d a childs) name namelen j = hasName d name namelen j := by
  rw [hasName, hasName, entries_rehead]
  cases d.entries[j]? with
  | none => rfl
  | some entry =>
      by_cases here : a = j
      · simp [here, nameMatches]
      · simp [here]

end

/-! ## The steps of an insertion under an entry with children -/

section
variable {fs : Fs} {d : Dcache} {a f n c s : Nat} {path : List UInt8}

theorem childOf_load (held : childOf d a = some c) : ∃ above, d.load (some a) = .ok above ∧ above.childs = some c := by
  obtain ⟨above, stored, same⟩ := Option.bind_eq_some_iff.mp held
  exact ⟨above, load_eq stored, same⟩

theorem step_test (held : childOf d a = some c) :
    threadStep fs d (.insert path n a f .test) 0 = .ok (d, .insert path n a f .head) := by
  obtain ⟨above, loads, same⟩ := childOf_load held
  simp [threadStep, dcacheInsertStep, loads, same]

theorem step_head (held : childOf d a = some c) :
    threadStep fs d (.insert path n a f .head) 0 = .ok (d, .insert path n a f (.tail (some c))) := by
  obtain ⟨above, loads, same⟩ := childOf_load held
  simp [threadStep, dcacheInsertStep, loads, same]

theorem step_tail (held : siblingOf d c = some s) :
    threadStep fs d (.insert path n a f (.tail (some c))) 0 = .ok (d, .insert path n a f (.link (some s))) := by
  obtain ⟨entry, stored, same⟩ := Option.bind_eq_some_iff.mp held
  simp [threadStep, dcacheInsertStep, load_eq stored, same]

theorem step_link (inside : f < d.entries.length) : threadStep fs d (.insert path n a f (.link (some s))) 0 =
    .ok (relink d f (some s), .insert path n a f .again) := by
  have stored := List.getElem?_eq_getElem inside
  have writes := store_eq_modify stored fun entry => { entry with siblings := some s }
  simp only [threadStep, dcacheInsertStep, load_eq stored, Exec.ok_bind, Exec.pure_eq, writes]
  rfl

theorem step_again (held : childOf d a = some c) :
    threadStep fs d (.insert path n a f .again) 0 = .ok (d, .insert path n a f (.hook (some c))) := by
  obtain ⟨above, loads, same⟩ := childOf_load held
  simp [threadStep, dcacheInsertStep, loads, same]

theorem step_hook (inside : c < d.entries.length) : threadStep fs d (.insert path n a f (.hook (some c))) 0 =
    .ok (relink d c (some f), .insert path n a f .publish) := by
  have stored := List.getElem?_eq_getElem inside
  have writes := store_eq_modify stored fun entry => { entry with siblings := some f }
  simp only [threadStep, dcacheInsertStep, load_eq stored, Exec.ok_bind, Exec.pure_eq, Option.getD_some, writes]
  rfl

theorem step_publish (inside : a < d.entries.length) : threadStep fs d (.insert path n a f .publish) 0 =
    .ok (rehead d a (some f), nextComponent path n (some f)) := by
  have stored := List.getElem?_eq_getElem inside
  have writes := store_eq_modify stored fun entry => { entry with childs := some f }
  simp only [threadStep, dcacheInsertStep, load_eq stored, Exec.ok_bind, Exec.pure_eq, writes]
  rfl

end

end SampleFs.Proof.Fuse

import SampleFs.Proof.Fuse.CacheThreads
import SampleFs.Proof.Fuse.CacheWrites

namespace SampleFs.Proof.Fuse
open Lib SampleFs.Fuse

section
variable {fs : Fs} {d : Dcache}

/-! ## Two insertions at once -/

theorem run_left {d' : Dcache} {t₁ t₂ : Thread} {point : ThreadPoint} {history : List (PoolEvent (List UInt8) × Unit)}
    {final : Pool Dcache Thread} (steps : threadStep fs d t₁.point 0 = .ok (d', point))
    (rest : Run (cacheThreads fs) ⟨d', [{ t₁ with point }, t₂]⟩ history final) :
    Run (cacheThreads fs) ⟨d, [t₁, t₂]⟩ ((.step 0, ()) :: history) final :=
  .cons ⟨t₁, d', { t₁ with point }, rfl, ⟨point, ⟨0, steps⟩, rfl⟩, rfl⟩ rest

theorem run_right {d' : Dcache} {t₁ t₂ : Thread} {point : ThreadPoint} {history : List (PoolEvent (List UInt8) × Unit)}
    {final : Pool Dcache Thread} (steps : threadStep fs d t₂.point 0 = .ok (d', point))
    (rest : Run (cacheThreads fs) ⟨d', [t₁, { t₂ with point }]⟩ history final) :
    Run (cacheThreads fs) ⟨d, [t₁, t₂]⟩ ((.step 1, ()) :: history) final :=
  .cons ⟨t₂, d', { t₂ with point }, rfl, ⟨point, ⟨0, steps⟩, rfl⟩, rfl⟩ rest

end

/-- A new entry for a name that was found, before anybody else knows it. -/
structure NewName where
  arg : List UInt8
  path : List UInt8
  inode : Nat

namespace NewName

def entry (new : NewName) : DcacheEntry := ⟨none, none, new.inode, token new.path⟩

def thread (new : NewName) (a fresh : Nat) (point : InsertPoint) : Thread :=
  ⟨new.arg, .insert new.path new.inode a fresh point⟩

def after (new : NewName) (fresh : Nat) : Thread := ⟨new.arg, nextComponent new.path new.inode (some fresh)⟩

end NewName

section
variable {fs : Fs} {d : Dcache} {kids : Nat → List Nat} {a c s : Nat} (one two : NewName)

def withBoth (d : Dcache) : Dcache := push (push d one.entry) two.entry

/-- Both have read the first child and what follows it before either has written. -/
def raced (d : Dcache) (a c s : Nat) : Dcache :=
  let f := d.entries.length
  rehead (rehead (relink (relink (relink (relink (withBoth one two d) f (some s)) (f + 1) (some s)) c (some f)) c
    (some (f + 1))) a (some (f + 1))) a (some f)

def raceOrder : List Nat := [0, 0, 0, 0, 1, 1, 1, 1, 0, 0, 1, 1, 1, 0]

theorem length_withBoth : (withBoth one two d).entries.length = d.entries.length + 2 := by
  rw [withBoth, push_size, push_size]

theorem withBoth_old {k : Nat} (inside : k < d.entries.length) : (withBoth one two d).entries[k]? = d.entries[k]? := by
  rw [withBoth, push_old (by rw [push_size]; omega), push_old inside.ne]

theorem siblingOf_withBoth {k : Nat} (inside : k < d.entries.length) :
    siblingOf (withBoth one two d) k = siblingOf d k := by
  rw [siblingOf, siblingOf, withBoth_old one two inside]

theorem race_run (first : childOf d a = some c) (next : siblingOf d c = some s) (above : a < d.entries.length)
    (child : c < d.entries.length) :
    Run (cacheThreads fs)
      ⟨withBoth one two d, [one.thread a d.entries.length .test, two.thread a (d.entries.length + 1) .test]⟩
      (raceOrder.map fun i => (.step i, ()))
      ⟨raced one two d a c s, [one.after d.entries.length, two.after (d.entries.length + 1)]⟩ := by
  have size := @length_withBoth d one two
  have first₀ : childOf (withBoth one two d) a = some c := by
    rw [childOf, withBoth_old one two above]
    exact first
  have next₀ : siblingOf (withBoth one two d) c = some s := (siblingOf_withBoth one two child).trans next
  have next₁ : siblingOf (relink (withBoth one two d) d.entries.length (some s)) c = some s := by
    rw [siblingOf_relink (by omega), if_neg (by omega)]
    exact next₀
  refine run_left (step_test first₀) ?_
  refine run_left (step_head first₀) ?_
  refine run_left (step_tail next₀) ?_
  refine run_left (step_link (by omega)) ?_
  refine run_right (step_test ((childOf_relink _ _).trans first₀)) ?_
  refine run_right (step_head ((childOf_relink _ _).trans first₀)) ?_
  refine run_right (step_tail next₁) ?_
  refine run_right (step_link (by rw [length_relink]; omega)) ?_
  refine run_left (step_again (((childOf_relink _ _).trans (childOf_relink _ _)).trans first₀)) ?_
  refine run_left (step_hook (by rw [length_relink, length_relink]; omega)) ?_
  refine run_right (step_again ((((childOf_relink _ _).trans (childOf_relink _ _)).trans (childOf_relink _ _)).trans first₀)) ?_
  refine run_right (step_hook (by rw [length_relink, length_relink, length_relink]; omega)) ?_
  refine run_right (step_publish (by rw [length_relink, length_relink, length_relink, length_relink]; omega)) ?_
  refine run_left (step_publish ?_) (.nil _)
  rw [rehead, List.length_modify, length_relink, length_relink, length_relink, length_relink]
  omega

/-- The entry that both insertions hung theirs behind is followed by the second one only. -/
theorem siblingOf_raced (child : c < d.entries.length) (k : Nat) : siblingOf (raced one two d a c s) k =
    if c = k then some (d.entries.length + 1)
    else if d.entries.length + 1 = k then some s
    else if d.entries.length = k then some s
    else siblingOf (withBoth one two d) k := by
  have size := @length_withBoth d one two
  unfold raced
  simp only
  rw [siblingOf_rehead, siblingOf_rehead, siblingOf_relink (by simp only [length_relink]; omega)]
  split
  next => rfl
  next other =>
    rw [siblingOf_relink (by simp only [length_relink]; omega), if_neg other,
      siblingOf_relink (by rw [length_relink]; omega), siblingOf_relink (by omega)]

theorem childOf_raced (above : a < d.entries.length) : childOf (raced one two d a c s) a = some d.entries.length := by
  have size := @length_withBoth d one two
  unfold raced
  refine childOf_rehead ?_ _
  rw [rehead, List.length_modify, length_relink, length_relink, length_relink, length_relink]
  omega

theorem hasName_raced (name : List UInt8) (namelen k : Nat) :
    hasName (raced one two d a c s) name namelen k = hasName (withBoth one two d) name namelen k := by
  unfold raced
  simp only [hasName_rehead, hasName_relink]

theorem siblingPass_onward {d : Dcache} {first iter next namelen : Nat} {name : List UInt8}
    (other : hasName d name namelen iter = false) (link : siblingOf d iter = some next) (more : next ≠ first) :
    siblingPass d first name namelen iter = .ok (.again next) := by
  obtain ⟨entry, stored, same⟩ := Option.bind_eq_some_iff.mp link
  rw [hasName_stored stored, decide_eq_false_iff_not] at other
  rw [siblingPass, load_eq stored, Exec.ok_bind, if_neg other, same]
  simp [more]

/-- For every cache in order and every entry with children, two insertions under it can leave a ring that
does not lead back to the first child. A lookup of a name that is not there then never ends. -/
theorem racing_inserts_trap (shape : Shape d kids) (above : a < d.entries.length) (nonempty : kids a ≠ []) :
    ∃ final, Run (cacheThreads fs)
      ⟨withBoth one two d, [one.thread a d.entries.length .test, two.thread a (d.entries.length + 1) .test]⟩
      (raceOrder.map fun i => (.step i, ())) ⟨final, [one.after d.entries.length, two.after (d.entries.length + 1)]⟩ ∧
      ∀ parent name namelen, parent.getD 0 = a → (∀ k ∈ kids a, hasName d name namelen k = false) →
        ¬ nameMatches one.entry name namelen → ¬ nameMatches two.entry name namelen →
        ∀ fuel, dcacheLookup final parent name namelen fuel = .timeout := by
  obtain ⟨c, rest, listed⟩ := List.exists_cons_of_ne_nil nonempty
  have head : c ∈ kids a := by
    rw [listed]
    exact List.mem_cons_self
  have child := (shape.younger a c head).2
  obtain ⟨entry, stored⟩ : ∃ entry, d.entries[a]? = some entry := ⟨_, List.getElem?_eq_getElem above⟩
  have first : childOf d a = some c := by
    rw [childOf_stored stored, shape.heads a entry stored, listed]
    rfl
  obtain ⟨s, follows, next⟩ := (shape.rings a).next_mem head
  have inside : ∀ k ∈ kids a, k < d.entries.length := fun k member => (shape.younger a k member).2
  refine ⟨raced one two d a c s, race_run one two first next above child, ?_⟩
  rintro parent name namelen rfl absent other₁ other₂ fuel
  have named : ∀ k, k ∈ kids (parent.getD 0) ∨ k = d.entries.length ∨ k = d.entries.length + 1 →
      hasName (raced one two d (parent.getD 0) c s) name namelen k = false := by
    intro k known
    rw [hasName_raced]
    rcases known with member | rfl | rfl
    · rw [hasName, withBoth_old one two (inside k member)]
      exact absent k member
    · have new : (withBoth one two d).entries[d.entries.length]? = some one.entry := by
        rw [withBoth, push_old (by rw [push_size]; omega), push_new]
      rw [hasName_stored new]
      exact decide_eq_false other₁
    · have new : (withBoth one two d).entries[d.entries.length + 1]? = some two.entry := by
        rw [← push_size d one.entry]
        exact push_new _ _
      rw [hasName_stored new]
      exact decide_eq_false other₂
  obtain ⟨top, loads, childs⟩ := childOf_load (childOf_raced one two (s := s) (c := c) above)
  unfold dcacheLookup
  simp only [loads, Exec.ok_bind, childs]
  rw [Exec.loop_diverges _ (fun k => k ∈ kids (parent.getD 0) ∨ k = d.entries.length ∨ k = d.entries.length + 1) ?_
    fuel _ (.inr (.inl rfl))]
  · rfl
  -- From the first child the walk enters the old ring, and the old ring leads to the second new entry and back.
  · intro k known
    have link := siblingOf_raced one two (s := s) (a := parent.getD 0) child k
    have sure := named k known
    rcases known with member | rfl | rfl
    · by_cases same : c = k
      · rw [if_pos same] at link
        exact ⟨_, siblingPass_onward sure link (by omega), .inr (.inr rfl)⟩
      · have young := inside k member
        obtain ⟨y, belongs, onward⟩ := (shape.rings (parent.getD 0)).next_mem member
        rw [if_neg same, if_neg (by omega), if_neg (by omega), siblingOf_withBoth one two young] at link
        exact ⟨y, siblingPass_onward sure (link.trans onward) (inside y belongs).ne, .inl belongs⟩
    · rw [if_neg (by omega), if_neg (by omega), if_pos rfl] at link
      exact ⟨s, siblingPass_onward sure link (inside s follows).ne, .inl follows⟩
    · rw [if_neg (by omega), if_pos rfl] at link
      exact ⟨s, siblingPass_onward sure link (inside s follows).ne, .inl follows⟩

end

def pathC : List UInt8 := [slash, 0x63]
def newB : NewName := ⟨pathB, nameB, 12⟩
def newC : NewName := ⟨pathC, nameC, 13⟩

def approach : List Nat := List.replicate 8 0 ++ List.replicate 8 1

/-- With `a` in the cache, lookups of `b` and `c` race, and from then on a lookup of `d` does not end. -/
theorem racing_inserts_trap_root :
    stepAll (threadMove mountFs 20) ⟨cacheOf 14 nameA, [callThread pathB, callThread pathC]⟩ approach =
      some ⟨withBoth newB newC (cacheOf 14 nameA), [newB.thread 0 2 .test, newC.thread 0 3 .test]⟩ ∧
    ∃ final, Run (cacheThreads mountFs)
      ⟨withBoth newB newC (cacheOf 14 nameA), [newB.thread 0 2 .test, newC.thread 0 3 .test]⟩
      (raceOrder.map fun i => (.step i, ())) ⟨final, [newB.after 2, newC.after 3]⟩ ∧
      ∀ fuel, dcacheLookup final none [0x64] 1 fuel = .timeout := by
  refine ⟨by decide +kernel, ?_⟩
  obtain ⟨d, kids, entry, inserts, inserted, _⟩ := @dcacheInsert_spec (dcacheInitRoot 2) _ (Shape.init 2) none
    (by decide) (fun _ _ stored => by cases stored; decide) nameA 1 (by decide) 14
  have runs : dcacheInsert (dcacheInitRoot 2) none nameA 1 14 = .ok (some 1, cacheOf 14 nameA) := by decide
  rw [runs] at inserts
  obtain ⟨_, rfl⟩ := Prod.mk.inj (Exec.ok.inj inserts)
  have only : ∀ k, k ∈ kids 0 ↔ k = 1 := by
    intro k
    have members : k ∈ kids 0 ↔ k ∈ [] ∨ 0 = 0 ∧ k = 1 := inserted.members 0 k
    simpa using members
  have nonempty : kids 0 ≠ [] := List.ne_nil_of_mem ((only 1).mpr rfl)
  obtain ⟨final, run, never⟩ := @racing_inserts_trap mountFs _ kids 0 newB newC inserted.shape (by decide) nonempty
  refine ⟨final, run, never none [0x64] 1 rfl ?_ (by decide) (by decide)⟩
  intro k member
  rw [(only k).mp member]
  decide

end SampleFs.Proof.Fuse

import SampleFs.Fuse.Inode
import SampleFs.Lib.Orbit
import SampleFs.Proof.Fuse.ExtentTree

namespace SampleFs.Proof.Fuse
open Lib SampleFs.Fuse

/-! ## One level of a lookup -/

/-- The block that the lookup goes on in, and `none` at a leaf. -/
def indexedBlock (lblock : Nat) (extents : List UInt8) : Exec Fault (Option Nat) := do
  let eh ← extentHeader extents
  Exec.check (eh.magic = ext4ExtMagic) .assertFailed
  if eh.depth = 0 then return none
  else
    match ← indexScan extents lblock eh.entries 0 none with
    | none => .fail .assertFailed
    | some recurseEi => return some recurseEi.leafLo

section
variable (fs : Fs) (lblock : Nat)

def entered (extents : List UInt8) : Option Nat :=
  match indexedBlock lblock extents with
  | .ok (some block) =>
      match extentGetExtentsInBlock fs block with
      | .ok _ => some block
      | _ => none
  | _ => none

def enteredFrom (block : Nat) : Option Nat :=
  match extentGetExtentsInBlock fs block with
  | .ok node => entered fs lblock node
  | _ => none

def descent (root : List UInt8) : Nat → Option Nat := orbit (enteredFrom fs lblock) (entered fs lblock root)

def NoBlockTwice (root : List UInt8) : Prop := NeverTwice (enteredFrom fs lblock) (entered fs lblock root)

def LookupEnds (len : Nat) (root : List UInt8) (levels : Nat) : Prop :=
  extentGetPblock fs lblock len levels root ≠ .timeout

end

def depthOf (extents : List UInt8) : Nat :=
  match extentHeader extents with
  | .ok eh => eh.depth
  | _ => 0

-- Block numbers have 32 bits.
def levelBound (root : List UInt8) : Nat := if depthOf root = 0 then 1 else 2 ^ 32 + 1

/-- Every node on the way down is less deep than the one above it. -/
structure DepthsFall (fs : Fs) (lblock : Nat) (root : List UInt8) : Prop where
  first : ∀ block node, descent fs lblock root 0 = some block → extentGetExtentsInBlock fs block = .ok node →
    depthOf node < depthOf root
  later : ∀ k above block upper node, descent fs lblock root k = some above →
    descent fs lblock root (k + 1) = some block → extentGetExtentsInBlock fs above = .ok upper →
      extentGetExtentsInBlock fs block = .ok node → depthOf node < depthOf upper

section
variable {fs : Fs} {lblock len : Nat}

theorem indexScan_leafLo {node : List UInt8} {left i : Nat} {best : Option ExtentIdx} {ei : ExtentIdx}
    (small : ∀ other, best = some other → other.leafLo < 2 ^ 32)
    (found : indexScan node lblock left i best = .ok (some ei)) : ei.leafLo < 2 ^ 32 := by
  induction left generalizing i best with
  | zero => exact small ei (Exec.ok.inj found)
  | succ left ih =>
      rw [indexScan] at found
      obtain ⟨here, reads, rest⟩ := Exec.bind_eq_ok.mp found
      obtain ⟨_, _, rest⟩ := Exec.bind_eq_ok.mp rest
      by_cases above : here.block > lblock
      · rw [if_pos above] at rest
        exact small ei (Exec.ok.inj rest)
      · rw [if_neg above] at rest
        refine ih ?_ rest
        rintro other same
        cases same
        obtain ⟨_, _, reads⟩ := Exec.bind_eq_ok.mp reads
        obtain ⟨word, loads, reads⟩ := Exec.bind_eq_ok.mp reads
        obtain ⟨_, _, reads⟩ := Exec.bind_eq_ok.mp reads
        cases reads
        exact load_lt loads

theorem entered_eq_some {extents : List UInt8} {block : Nat} :
    entered fs lblock extents = some block ↔
      indexedBlock lblock extents = .ok (some block) ∧ ∃ node, extentGetExtentsInBlock fs block = .ok node := by
  unfold entered
  constructor
  · intro enters
    split at enters
    next next goes =>
      split at enters
      next node fetched =>
        cases enters
        exact ⟨goes, node, fetched⟩
      next => cases enters
    next => cases enters
  · rintro ⟨goes, node, fetched⟩
    simp only [goes, fetched]

theorem indexedBlock_eq_some {extents : List UInt8} {next : Nat} :
    indexedBlock lblock extents = .ok (some next) ↔ ∃ eh, extentHeader extents = .ok eh ∧ eh.magic = ext4ExtMagic ∧
      eh.depth ≠ 0 ∧ ∃ ei, indexScan extents lblock eh.entries 0 none = .ok (some ei) ∧ ei.leafLo = next := by
  constructor
  · intro goes
    obtain ⟨eh, header, rest⟩ := Exec.bind_eq_ok.mp goes
    obtain ⟨_, passes, rest⟩ := Exec.bind_eq_ok.mp rest
    by_cases leaf : eh.depth = 0
    · rw [if_pos leaf] at rest
      cases rest
    · rw [if_neg leaf] at rest
      obtain ⟨picked, scans, rest⟩ := Exec.bind_eq_ok.mp rest
      cases picked with
      | none => cases rest
      | some ei =>
          cases rest
          exact ⟨eh, header, Exec.check_eq_ok.mp passes, leaf, ei, scans, rfl⟩
  · rintro ⟨eh, header, magic, deep, ei, scans, rfl⟩
    simp only [indexedBlock, header, Exec.ok_bind, Exec.check_pos _ magic, if_neg deep, scans]
    rfl

theorem indexedBlock_lt {extents : List UInt8} {block : Nat} (goes : indexedBlock lblock extents = .ok (some block)) :
    block < 2 ^ 32 := by
  obtain ⟨eh, _, _, _, ei, scans, rfl⟩ := indexedBlock_eq_some.mp goes
  exact indexScan_leafLo (by simp) scans

theorem indexedBlock_deep {extents : List UInt8} {block : Nat} (goes : indexedBlock lblock extents = .ok (some block)) :
    depthOf extents ≠ 0 := by
  obtain ⟨eh, header, _, deep, _⟩ := indexedBlock_eq_some.mp goes
  rw [depthOf, header]
  exact deep

theorem diskRead_ne_timeout (disk : Disk) (start size : Nat) : diskRead disk start size ≠ .timeout := by
  simp [diskRead, Exec.bind_eq_timeout, Exec.check_ne_timeout]

theorem extentHeader_ne_timeout (node : List UInt8) : extentHeader node ≠ .timeout := by
  simp [extentHeader, Exec.bind_eq_timeout, load_ne_timeout]

theorem extentScan_ne_timeout (node : List UInt8) (left i : Nat) :
    extentScan node lblock len left i ≠ .timeout := by
  induction left generalizing i with
  | zero => simp [extentScan]
  | succ left ih =>
      simp only [extentScan, extentAt, ne_eq, Exec.bind_eq_timeout, load_ne_timeout, Exec.check_ne_timeout,
        Exec.pure_eq, false_or, reduceCtorEq, and_false, exists_false, not_exists, not_and]
      intro ee _ _ _
      split
      · simp
      · exact ih (i + 1)

theorem indexScan_ne_timeout (node : List UInt8) (left i : Nat) (best : Option ExtentIdx) :
    indexScan node lblock left i best ≠ .timeout := by
  induction left generalizing i best with
  | zero => simp [indexScan]
  | succ left ih =>
      simp only [indexScan, extentIdxAt, ne_eq, Exec.bind_eq_timeout, load_ne_timeout, Exec.check_ne_timeout,
        Exec.pure_eq, false_or, reduceCtorEq, and_false, exists_false, not_exists, not_and]
      intro ei _ _ _
      split
      · simp
      · exact ih (i + 1) (some ei)

theorem extentGetExtentsInBlock_ne_timeout (block : Nat) : extentGetExtentsInBlock fs block ≠ .timeout := by
  simp [extentGetExtentsInBlock, Exec.bind_eq_timeout, diskRead_ne_timeout, load_ne_timeout]

theorem lookup_timeout {extents : List UInt8} {fuel : Nat} :
    extentGetPblock fs lblock len (fuel + 1) extents = .timeout ↔ ∃ block node, entered fs lblock extents = some block ∧
      extentGetExtentsInBlock fs block = .ok node ∧ extentGetPblock fs lblock len fuel node = .timeout := by
  constructor
  · intro runs
    rw [extentGetPblock] at runs
    obtain ended | ⟨eh, header, rest⟩ := Exec.bind_eq_timeout.mp runs
    · exact absurd ended (extentHeader_ne_timeout _)
    obtain ended | ⟨_, passes, rest⟩ := Exec.bind_eq_timeout.mp rest
    · exact absurd ended (Exec.check_ne_timeout _ _)
    by_cases leaf : eh.depth = 0
    · rw [if_pos leaf] at rest
      exact absurd rest (extentScan_ne_timeout _ _ _)
    · rw [if_neg leaf] at rest
      obtain ended | ⟨picked, scans, rest⟩ := Exec.bind_eq_timeout.mp rest
      · exact absurd ended (indexScan_ne_timeout _ _ _ _)
      · cases picked with
        | none => cases rest
        | some ei =>
            obtain ended | ⟨node, fetched, rest⟩ := Exec.bind_eq_timeout.mp rest
            · exact absurd ended (extentGetExtentsInBlock_ne_timeout _)
            · have goes := indexedBlock_eq_some.mpr
                ⟨eh, header, Exec.check_eq_ok.mp passes, leaf, ei, scans, rfl⟩
              exact ⟨ei.leafLo, node, entered_eq_some.mpr ⟨goes, node, fetched⟩, fetched, rest⟩
  · rintro ⟨block, node, enters, fetched, rest⟩
    obtain ⟨eh, header, magic, deep, ei, scans, rfl⟩ := indexedBlock_eq_some.mp (entered_eq_some.mp enters).1
    simp only [extentGetPblock, header, Exec.ok_bind, Exec.check_pos _ magic, if_neg deep, scans, fetched]
    exact rest

theorem descent_onward {extents node : List UInt8} {next : Nat} (enters : entered fs lblock extents = some next)
    (fetched : extentGetExtentsInBlock fs next = .ok node) (k : Nat) :
    descent fs lblock extents (k + 1) = descent fs lblock node k := by
  rw [descent, enters, orbit_succ, enteredFrom, fetched]
  rfl

/-- With one level for each block on the way down and one more the recursion is still running. -/
theorem timeout_iff_descent {fuel : Nat} {extents : List UInt8} :
    extentGetPblock fs lblock len (fuel + 1) extents = .timeout ↔ descent fs lblock extents fuel ≠ none := by
  induction fuel generalizing extents with
  | zero =>
      rw [lookup_timeout]
      constructor
      · rintro ⟨block, node, enters, _, _⟩ stops
        rw [show entered fs lblock extents = none from stops] at enters
        cases enters
      · intro goes
        obtain ⟨block, enters⟩ := Option.ne_none_iff_exists'.mp goes
        obtain ⟨_, node, fetched⟩ := entered_eq_some.mp enters
        exact ⟨block, node, enters, fetched, rfl⟩
  | succ fuel ih =>
      rw [lookup_timeout]
      constructor
      · rintro ⟨block, node, enters, fetched, rest⟩
        rw [descent_onward enters fetched]
        exact ih.mp rest
      · intro goes
        cases enters : entered fs lblock extents with
        | none =>
            rw [descent, enters, orbit_none] at goes
            exact absurd rfl goes
        | some block =>
            obtain ⟨_, node, fetched⟩ := entered_eq_some.mp enters
            rw [descent_onward enters fetched] at goes
            exact ⟨block, node, rfl, fetched, ih.mpr goes⟩

theorem lookupEnds_iff {root : List UInt8} {levels : Nat} :
    LookupEnds fs lblock len root (levels + 1) ↔ descent fs lblock root levels = none := by
  rw [LookupEnds, ne_eq, timeout_iff_descent, not_not]

theorem enteredFrom_eq_some {above block : Nat} (enters : enteredFrom fs lblock above = some block) :
    ∃ upper, extentGetExtentsInBlock fs above = .ok upper ∧ entered fs lblock upper = some block := by
  unfold enteredFrom at enters
  split at enters
  next upper fetched => exact ⟨upper, fetched, enters⟩
  next => cases enters

theorem descent_entered {root : List UInt8} {k block : Nat} (visits : descent fs lblock root k = some block) :
    ∃ extents, entered fs lblock extents = some block := by
  cases k with
  | zero => exact ⟨root, visits⟩
  | succ k =>
      obtain ⟨above, _, enters⟩ := Option.bind_eq_some_iff.mp visits
      obtain ⟨upper, _, enters⟩ := enteredFrom_eq_some enters
      exact ⟨upper, enters⟩

theorem descent_lt {root : List UInt8} {k block : Nat} (visits : descent fs lblock root k = some block) :
    block < 2 ^ 32 := by
  obtain ⟨extents, enters⟩ := descent_entered visits
  exact indexedBlock_lt (entered_eq_some.mp enters).1

theorem lookupEnds_of_once {root : List UInt8} (once : NoBlockTwice fs lblock root) :
    LookupEnds fs lblock len root (levelBound root) := by
  unfold levelBound
  by_cases leaf : depthOf root = 0
  · rw [if_pos leaf, lookupEnds_iff]
    by_contra goes
    obtain ⟨block, enters⟩ := Option.ne_none_iff_exists'.mp goes
    exact indexedBlock_deep (entered_eq_some.mp enters).1 leaf
  · rw [if_neg leaf, lookupEnds_iff]
    exact ended_of_neverTwice (fun _ _ => descent_lt) once

theorem once_of_lookupEnds {root : List UInt8} {levels : Nat} (ends : LookupEnds fs lblock len root levels) :
    NoBlockTwice fs lblock root := by
  cases levels with
  | zero => exact absurd rfl ends
  | succ levels => exact neverTwice_of_ended (lookupEnds_iff.mp ends)

theorem depths_bound {root : List UInt8} (falls : DepthsFall fs lblock root) {k block : Nat} {node : List UInt8}
    (visits : descent fs lblock root k = some block) (fetched : extentGetExtentsInBlock fs block = .ok node) :
    depthOf node + k < depthOf root := by
  induction k generalizing block node with
  | zero => exact falls.first block node visits fetched
  | succ k ih =>
      obtain ⟨above, earlier, enters⟩ := Option.bind_eq_some_iff.mp visits
      obtain ⟨upper, fetchedAbove, _⟩ := enteredFrom_eq_some enters
      have less := falls.later k above block upper node earlier visits fetchedAbove fetched
      have bound := ih earlier fetchedAbove
      omega

theorem lookupEnds_of_depths {root : List UInt8} (falls : DepthsFall fs lblock root) :
    LookupEnds fs lblock len root (depthOf root + 1) := by
  rw [lookupEnds_iff]
  by_contra goes
  obtain ⟨block, visits⟩ := Option.ne_none_iff_exists'.mp goes
  obtain ⟨extents, enters⟩ := descent_entered visits
  obtain ⟨_, node, fetched⟩ := entered_eq_some.mp enters
  have bound := depths_bound falls visits fetched
  omega

end

theorem extent_lookup_ends (fs : Fs) (root : List UInt8) (lblock len : Nat) :
    ((∃ levels, LookupEnds fs lblock len root levels) ↔ NoBlockTwice fs lblock root) ∧
      (NoBlockTwice fs lblock root → LookupEnds fs lblock len root (levelBound root)) ∧
      (DepthsFall fs lblock root → LookupEnds fs lblock len root (depthOf root + 1)) := by
  refine ⟨⟨?_, ?_⟩, lookupEnds_of_once, lookupEnds_of_depths⟩
  · rintro ⟨levels, ends⟩
    exact once_of_lookupEnds ends
  · intro once
    exact ⟨levelBound root, lookupEnds_of_once once⟩

/-! ## An index block that names itself -/

def loopNode : List UInt8 := headerBytes 1 1 ++ idxEntry ⟨0, 5, 0⟩

def loopFs : Fs := ⟨⟨6144, imageByte [(5120, loopNode)], by decide⟩, smallSuper, []⟩

def loopInode : Inode := ⟨0x81a4, 1024, 0x80000, loopNode ++ List.replicate 36 0⟩

theorem extent_lookup_loops : loopInode.flags.testBit ext4ExtentsFlBit = true ∧
    ¬ ∃ levels, LookupEnds loopFs 0 1 loopInode.block levels := by
  refine ⟨by decide, ?_⟩
  rintro ⟨levels, ends⟩
  have enters : entered loopFs 0 loopInode.block = some 5 := by decide +kernel
  have again : enteredFrom loopFs 0 5 = some 5 := by decide +kernel
  have once := once_of_lookupEnds ends
  unfold NoBlockTwice at once
  rw [enters] at once
  cases once 0 1 5 rfl again

end SampleFs.Proof.Fuse

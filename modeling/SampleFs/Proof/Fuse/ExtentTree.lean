import SampleFs.Lib.RangeTree
import SampleFs.Fuse.Extents

namespace SampleFs.Proof.Fuse
open Lib SampleFs.Fuse

abbrev ExtentTree := RangeTree ExtentIdx Extent

def extentRanges : Ranges ExtentIdx Extent where
  key := ExtentIdx.block
  start := Extent.block
  stop := fun e => e.block + e.len

def Listed {τ : Type} (read : Nat → Exec Fault τ) (i : Nat) (items : List τ) : Prop :=
  ∀ j item, items[j]? = some item → read (i + j) = .ok item

theorem Listed.cons {τ : Type} {read : Nat → Exec Fault τ} {i : Nat} {item : τ} {rest : List τ}
    (listed : Listed read i (item :: rest)) : read i = .ok item ∧ Listed read (i + 1) rest := by
  refine ⟨listed 0 item rfl, ?_⟩
  intro j other found
  rw [Nat.add_assoc, Nat.add_comm 1 j]
  exact listed (j + 1) other found

/-- The node holds the tree, with the lower levels in the blocks its index entries name. -/
def Stored (fs : Fs) : (depth : Nat) → List UInt8 → ExtentTree depth → Prop
  | 0, node, leaf =>
      extentHeader node = .ok ⟨ext4ExtMagic, List.length leaf, 0⟩ ∧ Listed (extentAt node) 0 leaf
  | depth + 1, node, kids =>
      extentHeader node = .ok ⟨ext4ExtMagic, List.length kids, depth + 1⟩ ∧
        Listed (extentIdxAt node) 0 (List.map Prod.fst kids) ∧
        List.Forall (fun kid => kid.1.leafHi = 0 ∧
          ∃ child, extentGetExtentsInBlock fs kid.1.leafLo = .ok child ∧ Stored fs depth child kid.2) kids

structure Initialised (e : Extent) : Prop where
  startHi : e.startHi = 0
  positive : 1 ≤ e.len
  short : e.len ≤ 32768
  logical : e.block + e.len < 2 ^ 32
  physical : e.startLo + e.len ≤ 2 ^ 32

structure WellFormed (fs : Fs) (depth : Nat) (node : List UInt8) (tree : ExtentTree depth) : Prop where
  stored : Stored fs depth node tree
  ordered : RangeTree.Ordered extentRanges depth 0 (2 ^ 32) tree
  initialised : ∀ e ∈ RangeTree.entries depth tree, Initialised e

def MapsTo {depth : Nat} (tree : ExtentTree depth) (lblock pblock : Nat) : Prop :=
  ∃ e ∈ RangeTree.entries depth tree, RangeTree.Covered extentRanges lblock e ∧
    pblock = e.startLo + (lblock - e.block)

theorem sub32_eq {a b : Nat} (le : b ≤ a) (word : a < 2 ^ 32) : sub32 a b = a - b := by
  rw [sub32, Nat.mod_eq_of_lt (le.trans_lt word), ← Nat.add_sub_assoc (by omega)]
  rw [Nat.add_comm, Nat.add_sub_assoc le, Nat.add_mod_left, Nat.mod_eq_of_lt (by omega)]

/-! ## The code on a stored tree -/

def answer (lblock len : Nat) : Option Extent → Nat × Nat
  | none => (0, len)
  | some e => ((e.startLo + sub32 lblock e.block) % 2 ^ 32, sub32 (e.block + e.len) lblock)

theorem extentScan_eq {node : List UInt8} {lblock len : Nat} {leaf : List Extent} {i : Nat}
    (listed : Listed (extentAt node) i leaf) (initialised : ∀ e ∈ leaf, Initialised e) :
    extentScan node lblock len leaf.length i =
      .ok (answer lblock len (leaf.find? fun e => lblock < e.block + e.len)) := by
  induction leaf generalizing i with
  | nil => rfl
  | cons e rest ih =>
      obtain ⟨here, later⟩ := listed.cons
      have fine := initialised e (by simp)
      rw [List.length_cons, extentScan, here, Exec.ok_bind, Exec.check_pos _ fine.startHi, Exec.ok_bind,
        Nat.mod_eq_of_lt fine.logical]
      by_cases stops : lblock < e.block + e.len
      · rw [if_pos stops, List.find?_cons_of_pos (by simpa using stops)]
        rfl
      · rw [if_neg stops, List.find?_cons_of_neg (by simpa using stops)]
        exact ih later (fun other member => initialised other (by simp [member]))

theorem indexScan_eq {τ : Type} {node : List UInt8} {lblock : Nat} {kids : List (ExtentIdx × τ)} {i : Nat}
    (best : Option (ExtentIdx × τ)) (listed : Listed (extentIdxAt node) i (kids.map Prod.fst))
    (low : ∀ kid ∈ kids, kid.1.leafHi = 0) :
    indexScan node lblock kids.length i (best.map Prod.fst) =
      .ok ((RangeTree.pick extentRanges lblock best kids).map Prod.fst) := by
  induction kids generalizing i best with
  | nil => rfl
  | cons kid rest ih =>
      obtain ⟨here, later⟩ := listed.cons
      rw [List.length_cons, indexScan, here, Exec.ok_bind, Exec.check_pos _ (low kid (by simp)), Exec.ok_bind,
        RangeTree.pick]
      by_cases above : kid.1.block > lblock
      · rw [if_pos above, if_pos (show extentRanges.key kid.1 > lblock from above)]
        rfl
      · rw [if_neg above, if_neg (show ¬ extentRanges.key kid.1 > lblock from above)]
        exact ih (some kid) later (fun other member => low other (by simp [member]))

theorem extentGetPblock_eq {fs : Fs} {depth : Nat} {node : List UInt8} {tree : ExtentTree depth}
    (stored : Stored fs depth node tree) (initialised : ∀ e ∈ RangeTree.entries depth tree, Initialised e)
    (lblock len : Nat) {fuel : Nat} (enough : depth < fuel) :
    extentGetPblock fs lblock len fuel node =
      match RangeTree.lookup extentRanges lblock depth tree with
      | none => .fail .assertFailed
      | some found => .ok (answer lblock len found) := by
  induction depth generalizing node fuel with
  | zero =>
      obtain ⟨fuel, rfl⟩ : ∃ more, fuel = more + 1 := ⟨fuel - 1, by omega⟩
      obtain ⟨header, listed⟩ := stored
      rw [extentGetPblock, header, Exec.ok_bind, Exec.check_pos _ rfl, Exec.ok_bind, if_pos rfl]
      exact extentScan_eq listed initialised
  | succ depth ih =>
      obtain ⟨fuel, rfl⟩ : ∃ more, fuel = more + 1 := ⟨fuel - 1, by omega⟩
      obtain ⟨header, listed, children⟩ := stored
      have below := List.forall_iff_forall_mem.mp children
      have scan : indexScan node lblock (List.length tree) 0 none =
          .ok ((RangeTree.pick extentRanges lblock none tree).map Prod.fst) :=
        indexScan_eq none listed fun kid member => (below kid member).1
      rw [extentGetPblock, header, Exec.ok_bind, Exec.check_pos _ rfl, Exec.ok_bind, if_neg (by simp), scan,
        Exec.ok_bind, RangeTree.lookup]
      cases picked : RangeTree.pick extentRanges lblock none tree with
      | none => rfl
      | some kid =>
          have member := (RangeTree.pick_mem picked).resolve_left (by simp)
          obtain ⟨_, child, fetched, inside⟩ := below kid member
          simp only [Option.map_some, Option.bind_some, fetched, Exec.ok_bind]
          apply ih inside
          · intro e covered
            exact initialised e (List.mem_flatMap.mpr ⟨kid, member, covered⟩)
          · omega

theorem extentGetPblock_growing (fs : Fs) (lblock len : Nat) (node : List UInt8) :
    Exec.Growing fun fuel => extentGetPblock fs lblock len fuel node := by
  intro m n le
  induction m generalizing n node with
  | zero => exact .inl rfl
  | succ m ih =>
      obtain ⟨n, rfl⟩ : ∃ more, n = more + 1 := ⟨n - 1, by omega⟩
      refine (Exec.Below.refl _).bind fun eh => (Exec.Below.refl _).bind fun _ => ?_
      by_cases leaf : eh.depth = 0
      · simp only [if_pos leaf]
        exact .refl _
      · simp only [if_neg leaf]
        refine (Exec.Below.refl _).bind fun recurseEi => ?_
        cases recurseEi with
        | none => exact .refl _
        | some ei =>
            refine (Exec.Below.refl _).bind fun child => ?_
            exact ih child (by omega)

theorem answer_covered {lblock len : Nat} {e : Extent} (fine : Initialised e)
    (covered : RangeTree.Covered extentRanges lblock e) :
    answer lblock len (some e) = (e.startLo + (lblock - e.block), e.block + e.len - lblock) := by
  obtain ⟨starts, stops⟩ := covered
  simp only [extentRanges] at starts stops
  have logical := fine.logical
  have physical := fine.physical
  rw [answer, sub32_eq starts (by omega), sub32_eq (by omega) logical, Nat.mod_eq_of_lt (by omega)]

theorem mapsTo_unique {fs : Fs} {depth : Nat} {node : List UInt8} {tree : ExtentTree depth}
    (wellFormed : WellFormed fs depth node tree) {lblock p q : Nat} (left : MapsTo tree lblock p)
    (right : MapsTo tree lblock q) : p = q := by
  obtain ⟨e, member, covered, rfl⟩ := left
  obtain ⟨e', member', covered', rfl⟩ := right
  have first := RangeTree.lookup_covered wellFormed.ordered member covered
  have second := RangeTree.lookup_covered wellFormed.ordered member' covered'
  rw [first] at second
  cases second
  rfl

theorem extent_lookup_mapped {fs : Fs} {depth : Nat} {node : List UInt8} {tree : ExtentTree depth}
    (wellFormed : WellFormed fs depth node tree) {e : Extent} (member : e ∈ RangeTree.entries depth tree)
    {lblock : Nat} (covered : e.block ≤ lblock ∧ lblock < e.block + e.len) (len : Nat) :
    (∀ fuel, depth < fuel → extentGetPblock fs lblock len fuel node =
      .ok (e.startLo + (lblock - e.block), e.block + e.len - lblock)) ∧
    ∀ d, d < e.block + e.len - lblock →
      ∀ p, MapsTo tree (lblock + d) p ↔ p = e.startLo + (lblock - e.block) + d := by
  constructor
  · intro fuel enough
    have found := RangeTree.lookup_covered wellFormed.ordered member covered
    rw [extentGetPblock_eq wellFormed.stored wellFormed.initialised lblock len enough, found]
    exact congrArg Exec.ok (answer_covered (wellFormed.initialised e member) covered)
  · intro d inside p
    have mapped : MapsTo tree (lblock + d) (e.startLo + (lblock - e.block) + d) := by
      refine ⟨e, member, ⟨?_, ?_⟩, ?_⟩
      · exact covered.1.trans (Nat.le_add_right _ _)
      · show lblock + d < e.block + e.len
        omega
      · have := covered.1
        omega
    constructor
    · intro other
      exact mapsTo_unique wellFormed other mapped
    · intro same
      rw [same]
      exact mapped

def headerBytes (entries depth : Nat) : List UInt8 :=
  leBytes 2 ext4ExtMagic ++ leBytes 2 entries ++ leBytes 2 4 ++ leBytes 2 depth ++ leBytes 4 0

def extentEntry (e : Extent) : List UInt8 :=
  leBytes 4 e.block ++ leBytes 2 e.len ++ leBytes 2 e.startHi ++ leBytes 4 e.startLo

def idxEntry (ei : ExtentIdx) : List UInt8 :=
  leBytes 4 ei.block ++ leBytes 4 ei.leafLo ++ leBytes 2 ei.leafHi ++ leBytes 2 0

def leafNode (leaf : List Extent) : List UInt8 := headerBytes leaf.length 0 ++ leaf.flatMap extentEntry

def smallSuper : Super := ⟨64, 0, 8192, 16, 128, 0⟩

def twoLeafTree : ExtentTree 1 :=
  [(⟨0, 5, 0⟩, [⟨0, 3, 0, 20⟩, ⟨8, 2, 0, 30⟩]), (⟨16, 6, 0⟩, [⟨16, 4, 0, 40⟩])]

def twoLeafRoot : List UInt8 := headerBytes 2 1 ++ idxEntry ⟨0, 5, 0⟩ ++ idxEntry ⟨16, 6, 0⟩

def twoLeafFs : Fs where
  disk := ⟨65536, imageByte [(5120, leafNode [⟨0, 3, 0, 20⟩, ⟨8, 2, 0, 30⟩]), (6144, leafNode [⟨16, 4, 0, 40⟩])],
    by decide⟩
  super := smallSuper
  gdescTable := []

theorem listed_of_map {τ : Type} {read : Nat → Exec Fault τ} {items : List τ}
    (reads : (List.range items.length).map read = items.map .ok) : Listed read 0 items := by
  intro j item found
  have at_ := congrArg (fun results => results[j]?) reads
  simp only [List.getElem?_map, found] at at_
  have less : j < items.length := (List.getElem?_eq_some_iff.mp found).1
  rw [List.getElem?_range less] at at_
  rw [Nat.zero_add]
  exact Option.some.inj at_

theorem twoLeaf_wellFormed : WellFormed twoLeafFs 1 twoLeafRoot twoLeafTree where
  stored := by
    refine ⟨by decide +kernel, listed_of_map (by decide +kernel), ⟨rfl, ?_⟩, rfl, ?_⟩
    · refine ⟨leafNode [⟨0, 3, 0, 20⟩, ⟨8, 2, 0, 30⟩], by decide +kernel, by decide +kernel, ?_⟩
      exact listed_of_map (by decide +kernel)
    · refine ⟨leafNode [⟨16, 4, 0, 40⟩], by decide +kernel, by decide +kernel, ?_⟩
      exact listed_of_map (by decide +kernel)
  ordered := by
    refine .cons (b := 16) (Nat.zero_le _) (by decide) ⟨rfl, ?_⟩ ?_
    · exact .cons (Nat.zero_le _) (by decide) ⟨rfl, rfl⟩
        (.cons (by decide) (by decide) ⟨rfl, rfl⟩ (.nil (by decide)))
    · exact .cons (b := 20) (by decide) (by decide)
        ⟨rfl, .cons (by decide) (by decide) ⟨rfl, rfl⟩ (.nil (by decide))⟩ (.nil (by decide))
  initialised := by
    intro e member
    have listed : e ∈ [⟨0, 3, 0, 20⟩, ⟨8, 2, 0, 30⟩, ⟨16, 4, 0, 40⟩] := member
    simp only [List.mem_cons, List.not_mem_nil, or_false] at listed
    rcases listed with rfl | rfl | rfl
    all_goals exact ⟨rfl, by decide, by decide, by decide, by decide⟩

theorem extent_lookup_mapped_second :
    extentGetPblock twoLeafFs 17 1 2 twoLeafRoot = .ok (41, 3) := by
  have covered : (⟨16, 4, 0, 40⟩ : Extent).block ≤ 17 ∧ 17 < (⟨16, 4, 0, 40⟩ : Extent).block + 4 :=
    ⟨by decide, by decide⟩
  exact (extent_lookup_mapped twoLeaf_wellFormed (by decide) covered 1).1 2 (by decide)

end SampleFs.Proof.Fuse

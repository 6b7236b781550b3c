import SampleFs.Fuse.Inode
import SampleFs.Proof.Fuse.ExtentTree

namespace SampleFs.Proof.Fuse
open Lib SampleFs.Fuse

/-! ## Pointers of a block map -/

def wordAt (disk : Disk) (pos : Nat) : Nat := littleEndian (disk.bytes pos 4)

def pointerPos (fs : Fs) (pointer digit : Nat) : Nat := fs.super.blocks2Bytes pointer + digit * 4

/-- The slot of `i_block` and the digits that lead from it to a logical block. -/
def blockPath (super : Super) (lblock : Nat) : Option (Nat × List Nat) :=
  let a := super.addressesInIndBlock
  if lblock < ext4NdirBlocks then some (lblock, [])
  else if lblock < super.maxIndBlock then some (ext4IndBlock, [lblock - ext4NdirBlocks])
  else if lblock < super.maxDindBlock then
    let n := lblock - super.maxIndBlock
    some (ext4DindBlock, [n / a, n % a])
  else if lblock < super.maxTindBlock then
    let n := lblock - super.maxDindBlock
    let d := super.addressesInDindBlock
    some (ext4TindBlock, [n / d, n % d / a, n % d % a])
  else none

def slotWord (inode : Inode) (slot : Nat) : Nat :=
  littleEndian ((inode.block.drop (4 * slot)).take 4)

def mapsPointer (fs : Fs) : (pointer : Nat) → (digits : List Nat) → Option Nat
  | pointer, digits =>
      if pointer = 0 then none
      else match digits with
        | [] => some pointer
        | digit :: rest => mapsPointer fs (wordAt fs.disk (pointerPos fs pointer digit)) rest
termination_by structural _ digits => digits

/-- The digits that remain below the first zero pointer of a path. -/
def belowZero (fs : Fs) : (pointer : Nat) → (digits : List Nat) → List Nat
  | pointer, digits =>
      if pointer = 0 then digits
      else match digits with
        | [] => []
        | digit :: rest => belowZero fs (wordAt fs.disk (pointerPos fs pointer digit)) rest
termination_by structural _ digits => digits

def PointersOnDevice (fs : Fs) : (pointer : Nat) → (digits : List Nat) → Prop
  | _, [] => True
  | pointer, digit :: rest => pointer ≠ 0 →
      pointerPos fs pointer digit + 4 ≤ fs.disk.size ∧
        PointersOnDevice fs (wordAt fs.disk (pointerPos fs pointer digit)) rest

/-- Following the digits from a pointer, whatever its value, ends at a zero word. -/
def EndsInZero (fs : Fs) : (pointer : Nat) → (digits : List Nat) → Prop
  | pointer, [] => pointer = 0
  | pointer, digit :: rest => pointerPos fs pointer digit + 4 ≤ fs.disk.size ∧
      EndsInZero fs (wordAt fs.disk (pointerPos fs pointer digit)) rest

def walkPointers (fs : Fs) : (pointer : Nat) → (digits : List Nat) → Exec Fault Nat
  | pointer, [] => .ok pointer
  | pointer, digit :: rest => do
      let next ← diskReadU32 fs.disk (pointerPos fs pointer digit)
      walkPointers fs next rest

theorem diskReadU32_eq (disk : Disk) (pos : Nat) :
    diskReadU32 disk pos = if pos + 4 ≤ disk.size then .ok (wordAt disk pos) else .fail .assertFailed := by
  have fits := disk.fits
  by_cases inside : pos + 4 ≤ disk.size
  · have passes : 4 ≤ preadMax ∧ pos < 2 ^ 63 ∧ (4 = 0 ∨ pos + 4 ≤ disk.size) :=
      ⟨by decide, by omega, .inr inside⟩
    rw [diskReadU32, diskRead, Exec.check_pos _ passes, if_pos inside]
    rfl
  · have stops : ¬ (4 ≤ preadMax ∧ pos < 2 ^ 63 ∧ (4 = 0 ∨ pos + 4 ≤ disk.size)) := by
      intro passes
      exact inside (passes.2.2.resolve_left (by decide))
    rw [diskReadU32, diskRead, Exec.check_neg _ stops, if_neg inside]
    rfl

theorem walkPointers_zero {fs : Fs} {pointer : Nat} {digits : List Nat} :
    walkPointers fs pointer digits = .ok 0 ↔ EndsInZero fs pointer digits := by
  induction digits generalizing pointer with
  | nil => exact ⟨fun same => Exec.ok.inj same, congrArg Exec.ok⟩
  | cons digit rest ih =>
      rw [walkPointers, diskReadU32_eq, EndsInZero, ← ih]
      by_cases inside : pointerPos fs pointer digit + 4 ≤ fs.disk.size
      · rw [if_pos inside, Exec.ok_bind]
        exact ⟨fun walks => ⟨inside, walks⟩, And.right⟩
      · rw [if_neg inside, Exec.fail_bind]
        constructor
        · intro walks
          cases walks
        · intro ends
          exact absurd ends.1 inside

theorem endsInZero_hole {fs : Fs} {pointer : Nat} {digits : List Nat}
    (onDevice : PointersOnDevice fs pointer digits) (hole : mapsPointer fs pointer digits = none) :
    EndsInZero fs pointer digits ↔ EndsInZero fs 0 (belowZero fs pointer digits) := by
  induction digits generalizing pointer with
  | nil =>
      by_cases zero : pointer = 0
      · simp [zero, belowZero]
      · simp [mapsPointer, zero] at hole
  | cons digit rest ih =>
      by_cases zero : pointer = 0
      · simp [zero, belowZero]
      · obtain ⟨inside, below⟩ := onDevice zero
        rw [mapsPointer, if_neg zero] at hole
        rw [EndsInZero, belowZero, if_neg zero, ← ih below hole]
        exact ⟨And.right, fun ends => ⟨inside, ends⟩⟩

theorem walkPointers_mapped {fs : Fs} {pointer target : Nat} {digits : List Nat}
    (onDevice : PointersOnDevice fs pointer digits) (mapped : mapsPointer fs pointer digits = some target) :
    walkPointers fs pointer digits = .ok target := by
  induction digits generalizing pointer with
  | nil =>
      by_cases zero : pointer = 0
      · simp [mapsPointer, zero] at mapped
      · rw [mapsPointer, if_neg zero] at mapped
        exact congrArg Exec.ok (Option.some.inj mapped)
  | cons digit rest ih =>
      by_cases zero : pointer = 0
      · simp [mapsPointer, zero] at mapped
      · obtain ⟨inside, below⟩ := onDevice zero
        rw [mapsPointer, if_neg zero] at mapped
        rw [walkPointers, diskReadU32_eq, if_pos inside, Exec.ok_bind]
        exact ih below mapped

theorem inodeGetDataPblockInd_eq {fs : Fs} {n : Nat} (less : n < fs.super.addressesInIndBlock)
    (pointer : Nat) : inodeGetDataPblockInd fs n pointer = walkPointers fs pointer [n] := by
  rw [inodeGetDataPblockInd, Exec.check_pos _ less, Exec.ok_bind]
  simp only [walkPointers]
  exact (Exec.bind_ok _).symm

theorem inodeGetDataPblockDind_eq {fs : Fs} {n : Nat} (less : n < fs.super.addressesInDindBlock)
    (pointer : Nat) : inodeGetDataPblockDind fs n pointer =
      walkPointers fs pointer [n / fs.super.addressesInIndBlock, n % fs.super.addressesInIndBlock] := by
  have positive : 0 < fs.super.addressesInIndBlock := by
    by_contra zero
    simp [Super.addressesInDindBlock, Nat.eq_zero_of_not_pos zero] at less
  rw [inodeGetDataPblockDind, Exec.check_pos _ less, Exec.ok_bind, walkPointers]
  refine congrArg (Bind.bind _) (funext fun next => ?_)
  exact inodeGetDataPblockInd_eq (Nat.mod_lt _ positive) next

theorem inodeGetDataPblockTind_eq {fs : Fs} {n : Nat} (less : n < fs.super.addressesInTindBlock)
    (pointer : Nat) : inodeGetDataPblockTind fs n pointer =
      walkPointers fs pointer [n / fs.super.addressesInDindBlock,
        n % fs.super.addressesInDindBlock / fs.super.addressesInIndBlock,
        n % fs.super.addressesInDindBlock % fs.super.addressesInIndBlock] := by
  have positive : 0 < fs.super.addressesInDindBlock := by
    by_contra zero
    simp [Super.addressesInTindBlock, Nat.eq_zero_of_not_pos zero] at less
  rw [inodeGetDataPblockTind, Exec.check_pos _ less, Exec.ok_bind, walkPointers]
  refine congrArg (Bind.bind _) (funext fun next => ?_)
  exact inodeGetDataPblockDind_eq (Nat.mod_lt _ positive) next

theorem blockMapPblock_eq {fs : Fs} {inode : Inode} {lblock slot : Nat} {digits : List Nat}
    (room : inode.block.length = 60) (inside : lblock ≤ fs.super.bytes2Blocks inode.size)
    (path : blockPath fs.super lblock = some (slot, digits)) :
    blockMapPblock fs inode lblock = walkPointers fs (slotWord inode slot) digits := by
  have slots (i : Nat) (less : i ≤ ext4TindBlock) : iBlock inode i = .ok (slotWord inode i) :=
    load_inside (by rw [room]; simp only [ext4TindBlock] at less; omega)
  rw [blockMapPblock, Exec.check_pos _ inside, Exec.ok_bind]
  simp only [blockPath] at path
  split at path
  next direct =>
    cases path
    rw [if_pos direct]
    exact slots lblock (by simp only [ext4NdirBlocks, ext4TindBlock] at direct ⊢; omega)
  next direct =>
    rw [if_neg direct]
    split at path
    next single =>
      cases path
      have less : lblock - ext4NdirBlocks < fs.super.addressesInIndBlock := by
        simp only [Super.maxIndBlock] at single
        omega
      rw [if_pos single, slots _ (by decide), Exec.ok_bind]
      exact inodeGetDataPblockInd_eq less _
    next single =>
      rw [if_neg single]
      split at path
      next double =>
        cases path
        have less : lblock - fs.super.maxIndBlock < fs.super.addressesInDindBlock := by
          simp only [Super.maxDindBlock] at double
          omega
        rw [if_pos double, slots _ (by decide), Exec.ok_bind]
        exact inodeGetDataPblockDind_eq less _
      next double =>
        rw [if_neg double]
        split at path
        next triple =>
          cases path
          have less : lblock - fs.super.maxDindBlock < fs.super.addressesInTindBlock := by
            simp only [Super.maxTindBlock] at triple
            omega
          rw [if_pos triple, slots _ (by decide), Exec.ok_bind]
          exact inodeGetDataPblockTind_eq less _
        next => cases path

/-! ## Either format -/

inductive Layout where
  | extents (depth : Nat) (tree : ExtentTree depth)
  | blockMap

namespace Layout

def depth : Layout → Nat
  | .extents depth _ => depth
  | .blockMap => 0

def pblock (fs : Fs) (inode : Inode) : Layout → Nat → Option Nat
  | .extents depth tree, lblock =>
      ((RangeTree.entries depth tree).find? fun e => e.block ≤ lblock ∧ lblock < e.block + e.len).map
        fun e => e.startLo + (lblock - e.block)
  | .blockMap, lblock => do
      let (slot, digits) ← blockPath fs.super lblock
      mapsPointer fs (slotWord inode slot) digits

/-- The blocks that one lookup finds together from a mapped one on. -/
def run : Layout → Nat → Nat
  | .extents depth tree, lblock =>
      ((RangeTree.entries depth tree).find? fun e => e.block ≤ lblock ∧ lblock < e.block + e.len).elim 1
        fun e => e.block + e.len - lblock
  | .blockMap, _ => 1

def Valid (fs : Fs) (inode : Inode) : Layout → Prop
  | .extents depth tree =>
      inode.flags.testBit ext4ExtentsFlBit = true ∧ WellFormed fs depth inode.block tree
  | .blockMap => inode.flags.testBit ext4ExtentsFlBit = false ∧ inode.block.length = 60 ∧
      fs.super.bytes2Blocks inode.size ≤ fs.super.maxTindBlock ∧
      ∀ lblock slot digits, lblock < fs.super.bytes2Blocks inode.size →
        blockPath fs.super lblock = some (slot, digits) →
          PointersOnDevice fs (slotWord inode slot) digits

/-- A hole that the code takes for one: behind every extent of the leaf it is led to, or with
nothing but zero words below the first zero pointer, which it looks up in block 0. -/
def Visible (fs : Fs) (inode : Inode) : Layout → Nat → Prop
  | .extents depth tree, lblock => RangeTree.Trails extentRanges lblock depth tree
  | .blockMap, lblock => ∀ slot digits, blockPath fs.super lblock = some (slot, digits) →
      EndsInZero fs 0 (belowZero fs (slotWord inode slot) digits)

end Layout

theorem leafLayout_valid {fs : Fs} {inode : Inode} {leaf : List Extent}
    (flag : inode.flags.testBit ext4ExtentsFlBit = true)
    (header : extentHeader inode.block = .ok ⟨ext4ExtMagic, leaf.length, 0⟩)
    (listed : (List.range leaf.length).map (extentAt inode.block) = leaf.map .ok)
    (ordered : RangeTree.Ordered extentRanges 0 0 (2 ^ 32) leaf) (initialised : ∀ e ∈ leaf, Initialised e) :
    (Layout.extents 0 leaf).Valid fs inode :=
  ⟨flag, ⟨header, listed_of_map listed⟩, ordered, initialised⟩

theorem singleExtent_valid {fs : Fs} {inode : Inode} {e : Extent}
    (flag : inode.flags.testBit ext4ExtentsFlBit = true)
    (header : extentHeader inode.block = .ok ⟨ext4ExtMagic, 1, 0⟩)
    (listed : extentAt inode.block 0 = .ok e) (initialised : Initialised e) :
    (Layout.extents 0 [e]).Valid fs inode := by
  refine leafLayout_valid flag header (by simp [listed]) ?_ ?_
  · have starts : e.block < e.block + e.len := Nat.lt_add_of_pos_right initialised.positive
    exact .cons (Nat.zero_le _) starts ⟨rfl, rfl⟩ (.nil initialised.logical.le)
  · intro other member
    rwa [List.mem_singleton.mp member]

theorem inodeGetDataPblock_growing (fs : Fs) (inode : Inode) (lblock : Nat) :
    Exec.Growing (inodeGetDataPblock fs inode lblock) := by
  by_cases flag : inode.flags.testBit ext4ExtentsFlBit
  · intro m n le
    simp only [inodeGetDataPblock, if_pos flag]
    exact extentGetPblock_growing fs lblock 1 inode.block le
  · intro m n le
    simp only [inodeGetDataPblock, if_neg flag]
    exact .refl _

theorem blockPath_isSome {super : Super} {lblock : Nat} (less : lblock < super.maxTindBlock) :
    ∃ slot digits, blockPath super lblock = some (slot, digits) := by
  unfold blockPath
  split
  · exact ⟨_, _, rfl⟩
  · split
    · exact ⟨_, _, rfl⟩
    · split
      · exact ⟨_, _, rfl⟩
      · exact ⟨_, _, rfl⟩

theorem pblock_extents_none {fs : Fs} {inode : Inode} {depth lblock : Nat} {tree : ExtentTree depth} :
    Layout.pblock fs inode (.extents depth tree) lblock = none ↔
      ∀ e ∈ RangeTree.entries depth tree, ¬ RangeTree.Covered extentRanges lblock e := by
  simp [Layout.pblock, RangeTree.Covered, extentRanges]

theorem mapsTo_of_find {depth lblock : Nat} {tree : ExtentTree depth} {e : Extent}
    (stops : (RangeTree.entries depth tree).find?
      (fun e => e.block ≤ lblock ∧ lblock < e.block + e.len) = some e) :
    MapsTo tree lblock (e.startLo + (lblock - e.block)) := by
  have covered : e.block ≤ lblock ∧ lblock < e.block + e.len := by simpa using List.find?_some stops
  exact ⟨e, List.mem_of_find?_eq_some stops, covered, rfl⟩

theorem pblock_extents_some {fs : Fs} {inode : Inode} {depth lblock p : Nat} {tree : ExtentTree depth}
    (wellFormed : WellFormed fs depth inode.block tree) :
    Layout.pblock fs inode (.extents depth tree) lblock = some p ↔ MapsTo tree lblock p := by
  constructor
  · intro found
    obtain ⟨e, stops, rfl⟩ := Option.map_eq_some_iff.mp found
    exact mapsTo_of_find stops
  · intro maps
    cases found : Layout.pblock fs inode (.extents depth tree) lblock with
    | none =>
        obtain ⟨e, member, covered, _⟩ := maps
        exact absurd covered (pblock_extents_none.mp found e member)
    | some q =>
        obtain ⟨e, stops, rfl⟩ := Option.map_eq_some_iff.mp found
        exact congrArg some (mapsTo_unique wellFormed (mapsTo_of_find stops) maps)

theorem inodeGetDataPblock_run {fs : Fs} {inode : Inode} {layout : Layout}
    (valid : layout.Valid fs inode) {lblock p : Nat} (inside : lblock < fs.super.bytes2Blocks inode.size)
    (mapped : layout.pblock fs inode lblock = some p) : 0 < layout.run lblock ∧
      (∀ fuel, layout.depth < fuel → inodeGetDataPblock fs inode lblock fuel = .ok (p, layout.run lblock)) ∧
      ∀ d, d < layout.run lblock → layout.pblock fs inode (lblock + d) = some (p + d) := by
  cases layout with
  | extents depth tree =>
      obtain ⟨flag, wellFormed⟩ := valid
      obtain ⟨e, stops, rfl⟩ := Option.map_eq_some_iff.mp mapped
      have member := List.mem_of_find?_eq_some stops
      have covered : e.block ≤ lblock ∧ lblock < e.block + e.len := by simpa using List.find?_some stops
      have length : (Layout.extents depth tree).run lblock = e.block + e.len - lblock := by
        rw [Layout.run, stops]
        rfl
      have found := RangeTree.lookup_covered wellFormed.ordered member covered
      rw [length]
      refine ⟨Nat.sub_pos_of_lt covered.2, ?_, ?_⟩
      · intro fuel enough
        rw [inodeGetDataPblock, if_pos flag,
          extentGetPblock_eq wellFormed.stored wellFormed.initialised lblock 1 enough, found]
        exact congrArg Exec.ok (answer_covered (wellFormed.initialised e member) covered)
      · intro d less
        apply (pblock_extents_some wellFormed).mpr
        have starts : e.block ≤ lblock := covered.1
        refine ⟨e, member, ⟨starts.trans (Nat.le_add_right _ _), ?_⟩, by omega⟩
        show lblock + d < e.block + e.len
        omega
  | blockMap =>
      obtain ⟨flag, room, _, onDevice⟩ := valid
      obtain ⟨⟨slot, digits⟩, path, pointer⟩ := Option.bind_eq_some_iff.mp mapped
      refine ⟨Nat.one_pos, ?_, ?_⟩
      · intro fuel _
        rw [inodeGetDataPblock, if_neg (by simp [flag]), blockMapPblock_eq room inside.le path,
          walkPointers_mapped (onDevice lblock slot digits inside path) pointer]
        rfl
      · intro d less
        obtain rfl : d = 0 := Nat.lt_one_iff.mp less
        exact mapped

theorem inodeGetDataPblock_mapped {fs : Fs} {inode : Inode} {layout : Layout}
    (valid : layout.Valid fs inode) {lblock p : Nat} (inside : lblock < fs.super.bytes2Blocks inode.size)
    (mapped : layout.pblock fs inode lblock = some p) :
    ∃ len, 0 < len ∧
      (∀ fuel, layout.depth < fuel → inodeGetDataPblock fs inode lblock fuel = .ok (p, len)) ∧
      ∀ d, d < len → layout.pblock fs inode (lblock + d) = some (p + d) :=
  ⟨_, inodeGetDataPblock_run valid inside mapped⟩

theorem inodeGetDataPblock_visible {fs : Fs} {inode : Inode} {layout : Layout}
    (valid : layout.Valid fs inode) {lblock : Nat} (inside : lblock < fs.super.bytes2Blocks inode.size)
    (hole : layout.pblock fs inode lblock = none) {fuel : Nat} (enough : layout.depth < fuel) :
    inodeGetDataPblock fs inode lblock fuel = .ok (0, 1) ↔ layout.Visible fs inode lblock := by
  cases layout with
  | extents depth tree =>
      obtain ⟨flag, wellFormed⟩ := valid
      have uncovered := pblock_extents_none.mp hole
      rw [inodeGetDataPblock, if_pos flag,
        extentGetPblock_eq wellFormed.stored wellFormed.initialised lblock 1 enough, Layout.Visible,
        ← RangeTree.lookup_trails wellFormed.ordered]
      cases found : RangeTree.lookup extentRanges lblock depth tree with
      | none => simp
      | some entry =>
          cases entry with
          | none => simp [answer]
          | some e =>
              -- the extent that stops the search starts behind the block, so the run is too long
              obtain ⟨member, stops⟩ := RangeTree.lookup_mem found
              have behind : lblock < e.block := by
                by_contra reached
                exact uncovered e member ⟨Nat.not_lt.mp reached, stops⟩
              have fine := wellFormed.initialised e member
              have long : sub32 (e.block + e.len) lblock ≠ 1 := by
                have positive := fine.positive
                rw [sub32_eq (by omega) fine.logical]
                omega
              simp [answer, long]
  | blockMap =>
      obtain ⟨flag, room, limit, onDevice⟩ := valid
      obtain ⟨slot, digits, path⟩ := blockPath_isSome (inside.trans_le limit)
      have pointer : mapsPointer fs (slotWord inode slot) digits = none := by
        simpa [Layout.pblock, path] using hole
      have walk : walkPointers fs (slotWord inode slot) digits = .ok 0 ↔
          EndsInZero fs 0 (belowZero fs (slotWord inode slot) digits) :=
        walkPointers_zero.trans (endsInZero_hole (onDevice lblock slot digits inside path) pointer)
      rw [inodeGetDataPblock, if_neg (by simp [flag]), blockMapPblock_eq room inside.le path]
      constructor
      · intro returns slot' digits' path'
        rw [path] at path'
        cases path'
        obtain ⟨value, walks, rest⟩ := Exec.bind_eq_ok.mp returns
        cases rest
        exact walk.mp walks
      · intro visible
        rw [walk.mpr (visible slot digits path)]
        rfl

end SampleFs.Proof.Fuse

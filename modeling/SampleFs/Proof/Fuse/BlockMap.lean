import Mathlib.Data.List.Infix
import SampleFs.Lib.Radix
import SampleFs.Proof.Fuse.Layout

namespace SampleFs.Proof.Fuse
open Lib SampleFs.Fuse

/-- Where a pointer is kept: in a slot of `i_block`, or in a word of an index block on the disk. -/
inductive Slot where
  | iBlock (i : Nat)
  | disk (pos : Nat)
deriving DecidableEq, Repr

namespace Slot

def read (fs : Fs) (inode : Inode) : Slot → Exec Fault Nat
  | .iBlock i => SampleFs.Fuse.iBlock inode i
  | .disk pos => diskReadU32 fs.disk pos

def word (fs : Fs) (inode : Inode) : Slot → Nat
  | .iBlock i => slotWord inode i
  | .disk pos => wordAt fs.disk pos

def OnDevice (fs : Fs) (inode : Inode) : Slot → Prop
  | .iBlock i => 4 * i + 4 ≤ inode.block.length
  | .disk pos => pos + 4 ≤ fs.disk.size

def below (fs : Fs) (inode : Inode) (slot : Slot) (digit : Nat) : Slot :=
  .disk (pointerPos fs (slot.word fs inode) digit)

theorem read_onDevice {fs : Fs} {inode : Inode} {slot : Slot} (there : slot.OnDevice fs inode) :
    slot.read fs inode = .ok (slot.word fs inode) := by
  cases slot with
  | iBlock i => exact load_inside there
  | disk pos => exact (diskReadU32_eq fs.disk pos).trans (if_pos there)

end Slot

/-! ## The reference walk -/

-- Level `level` covers `base ^ level` blocks under the root in slot `11 + level`.
def radixFrom (base : Nat) : (levels level n : Nat) → Option (Nat × List Nat)
  | 0, _, _ => none
  | levels + 1, level, n =>
      if n < base ^ level then some (11 + level, radixDigits base level n)
      else radixFrom base levels (level + 1) (n - base ^ level)

def radixPath (base lblock : Nat) : Option (Nat × List Nat) :=
  if lblock < 12 then some (lblock, []) else radixFrom base 3 1 (lblock - 12)

-- Reads pointers and nothing else, so it stops only where `disk_read` does.
def radixWalk (fs : Fs) (inode : Inode) : Slot → List Nat → Exec Fault Nat
  | slot, [] => slot.read fs inode
  | slot, digit :: rest => do
      let indexBlock ← slot.read fs inode
      radixWalk fs inode (.disk (pointerPos fs indexBlock digit)) rest

def slotsRead (fs : Fs) (inode : Inode) : Slot → List Nat → List Slot
  | slot, [] => [slot]
  | slot, digit :: rest => slot :: slotsRead fs inode (slot.below fs inode digit) rest

def entrySlot (fs : Fs) (inode : Inode) (slot : Slot) (digits : List Nat) : Slot :=
  digits.foldl (Slot.below fs inode) slot

/-- The arguments of the helpers on the way to a block, each with the bound that is asserted of it. -/
def helperAsserts (super : Super) (lblock : Nat) : List (Nat × Nat) :=
  let ind n := [(n, super.addressesInIndBlock)]
  let dind n := (n, super.addressesInDindBlock) :: ind (n % super.addressesInIndBlock)
  let tind n := (n, super.addressesInTindBlock) :: dind (n % super.addressesInDindBlock)
  if lblock < ext4NdirBlocks then []
  else if lblock < super.maxIndBlock then ind (lblock - ext4NdirBlocks)
  else if lblock < super.maxDindBlock then dind (lblock - super.maxIndBlock)
  else tind (lblock - super.maxDindBlock)

/-- Different index blocks of the tree have different numbers, as far as two paths pass them. An
index block is known by the root and the digits that lead to it. -/
def IndexBlocksDistinct (fs : Fs) (inode : Inode) (path path' : Nat × List Nat) : Prop :=
  ∀ upper upper', upper <+: path.2 → upper ≠ path.2 → upper' <+: path'.2 → upper' ≠ path'.2 →
    (entrySlot fs inode (.iBlock path.1) upper).word fs inode =
        (entrySlot fs inode (.iBlock path'.1) upper').word fs inode →
      path.1 = path'.1 ∧ upper = upper'

structure RadixLookup (fs : Fs) (inode : Inode) (lblock : Nat) (path : Nat × List Nat) : Prop where
  walks : ∀ fuel, inodeGetDataPblock fs inode lblock fuel =
    radixWalk fs inode (.iBlock path.1) path.2 >>= fun entry => .ok (entry, 1)
  returns : (∀ slot ∈ slotsRead fs inode (.iBlock path.1) path.2, slot.OnDevice fs inode) →
    ∀ fuel, inodeGetDataPblock fs inode lblock fuel =
      .ok ((entrySlot fs inode (.iBlock path.1) path.2).word fs inode, 1)
  asserts : ∀ call ∈ helperAsserts fs.super lblock, call.1 < call.2

theorem radixWalk_onDevice {fs : Fs} {inode : Inode} {slot : Slot} {digits : List Nat}
    (there : ∀ passed ∈ slotsRead fs inode slot digits, passed.OnDevice fs inode) :
    radixWalk fs inode slot digits = .ok ((entrySlot fs inode slot digits).word fs inode) := by
  induction digits generalizing slot with
  | nil => exact Slot.read_onDevice (there slot (List.mem_singleton_self slot))
  | cons digit rest ih =>
      have first := Slot.read_onDevice (there slot List.mem_cons_self)
      rw [radixWalk, first, Exec.ok_bind]
      apply ih
      intro lower member
      exact there lower (List.mem_cons_of_mem slot member)

theorem radixWalk_eq (fs : Fs) (inode : Inode) (slot : Slot) (digits : List Nat) :
    radixWalk fs inode slot digits = slot.read fs inode >>= fun word => walkPointers fs word digits := by
  induction digits generalizing slot with
  | nil => exact (Exec.bind_ok _).symm
  | cons digit rest ih =>
      simp only [radixWalk, walkPointers, ih, Slot.read]

theorem radixDigits_two {a n : Nat} (less : n < a * a) : radixDigits a 2 n = [n / a, n % a] := by
  have upper : n / a < a := Nat.div_lt_of_lt_mul less
  simp [radixDigits, Nat.mod_eq_of_lt upper]

theorem radixDigits_three {a n : Nat} (less : n < a * a * a) :
    radixDigits a 3 n = [n / (a * a), n % (a * a) / a, n % (a * a) % a] := by
  have upper : n / (a * a) < a := Nat.div_lt_of_lt_mul less
  simp [radixDigits, Nat.div_div_eq_div_mul, Nat.mod_eq_of_lt upper, Nat.mod_mul_right_div_self]

theorem blockPath_eq_radixPath {super : Super} {lblock : Nat} (limit : lblock < super.maxTindBlock) :
    blockPath super lblock = radixPath super.addressesInIndBlock lblock := by
  have start : ext4NdirBlocks = 12 := rfl
  have first : super.maxIndBlock = 12 + super.addressesInIndBlock := rfl
  have second : super.maxDindBlock = super.maxIndBlock + super.addressesInDindBlock := rfl
  have third : super.maxTindBlock = super.maxDindBlock + super.addressesInTindBlock := rfl
  have square : super.addressesInIndBlock ^ 2 = super.addressesInDindBlock := pow_two _
  have cube : super.addressesInTindBlock ≤ super.addressesInIndBlock ^ 3 := by
    rw [pow_succ, square]
    exact Nat.mod_le _ _
  simp only [blockPath, radixPath, radixFrom, Nat.reduceAdd, pow_one, square]
  by_cases direct : lblock < ext4NdirBlocks
  · rw [if_pos direct, if_pos (show lblock < 12 from direct)]
  rw [if_neg direct, if_neg (show ¬ lblock < 12 from direct)]
  by_cases single : lblock < super.maxIndBlock
  · have less : lblock - 12 < super.addressesInIndBlock := by omega
    rw [if_pos single, if_pos less]
    simp [radixDigits, Nat.mod_eq_of_lt less, ext4NdirBlocks, ext4IndBlock]
  have beyond : ¬ lblock - 12 < super.addressesInIndBlock := by omega
  rw [if_neg single, if_neg beyond, Nat.sub_sub, ← first]
  by_cases double : lblock < super.maxDindBlock
  · have less : lblock - super.maxIndBlock < super.addressesInDindBlock := by omega
    rw [if_pos double, if_pos less, radixDigits_two less]
    rfl
  · have less : lblock - super.maxDindBlock < super.addressesInIndBlock ^ 3 := by omega
    have beyond : ¬ lblock - super.maxIndBlock < super.addressesInDindBlock := by omega
    rw [if_neg double, if_pos limit, if_neg beyond, Nat.sub_sub, ← second, if_pos less, radixDigits_three]
    · rfl
    · rwa [pow_succ, pow_two] at less

/-- What a path looks like: the root tells how many digits follow it. -/
structure PathShape (base : Nat) (path : Nat × List Nat) : Prop where
  root : path.1 < 15
  length : path.2.length = path.1 - 11
  digits : ∀ digit ∈ path.2, digit < base

theorem radixFrom_shape {base : Nat} (pos : 0 < base) {levels level n : Nat} {path : Nat × List Nat}
    (leads : radixFrom base levels level n = some path) :
    11 + level ≤ path.1 ∧ path.1 < 11 + level + levels ∧ path.2.length = path.1 - 11 ∧
      ∀ digit ∈ path.2, digit < base := by
  induction levels generalizing level n with
  | zero => cases leads
  | succ levels ih =>
      rw [radixFrom] at leads
      split_ifs at leads with here
      · cases leads
        refine ⟨le_refl _, by omega, ?_, radixDigits_lt pos level n⟩
        rw [radixDigits_length, Nat.add_sub_cancel_left]
      · obtain ⟨low, high, length, digits⟩ := ih leads
        exact ⟨by omega, by omega, length, digits⟩

theorem radixPath_shape {base : Nat} (pos : 0 < base) {lblock : Nat} {path : Nat × List Nat}
    (leads : radixPath base lblock = some path) : PathShape base path := by
  unfold radixPath at leads
  split_ifs at leads with direct
  · cases leads
    exact ⟨by omega, by simp; omega, by simp⟩
  · obtain ⟨_, high, length, digits⟩ := radixFrom_shape pos leads
    exact ⟨high, length, digits⟩

theorem radixFrom_injective {base : Nat} (pos : 0 < base) {levels level n m : Nat} {path : Nat × List Nat}
    (leads : radixFrom base levels level n = some path) (leads' : radixFrom base levels level m = some path) :
    n = m := by
  induction levels generalizing level n m with
  | zero => cases leads
  | succ levels ih =>
      rw [radixFrom] at leads leads'
      split_ifs at leads leads' with here here'
      · cases leads
        exact radixDigits_injective here here' (Prod.mk.inj (Option.some.inj leads')).2.symm
      · cases leads
        have := (radixFrom_shape pos leads').1
        omega
      · cases leads'
        have := (radixFrom_shape pos leads).1
        omega
      · have := ih leads leads'
        omega

theorem radixPath_injective {base : Nat} (pos : 0 < base) {lblock other : Nat} {path : Nat × List Nat}
    (leads : radixPath base lblock = some path) (leads' : radixPath base other = some path) : lblock = other := by
  unfold radixPath at leads leads'
  split_ifs at leads leads' with direct direct'
  · exact (Prod.mk.inj (Option.some.inj (leads.trans leads'.symm))).1
  · cases leads
    have := (radixFrom_shape pos leads').1
    omega
  · cases leads'
    have := (radixFrom_shape pos leads).1
    omega
  · have := radixFrom_injective pos leads leads'
    omega

theorem slotsRead_eq (fs : Fs) (inode : Inode) (slot : Slot) (digits : List Nat) :
    slotsRead fs inode slot digits = digits.inits.map (entrySlot fs inode slot) := by
  induction digits generalizing slot with
  | nil => rfl
  | cons digit rest ih =>
      rw [slotsRead, ih, List.inits, List.map_cons, List.map_map]
      rfl

theorem helperAsserts_hold {super : Super} (pos : 0 < super.addressesInIndBlock) {lblock : Nat}
    (limit : lblock < super.maxTindBlock) : ∀ call ∈ helperAsserts super lblock, call.1 < call.2 := by
  have square : 0 < super.addressesInDindBlock := Nat.mul_pos pos pos
  have single (n : Nat) : n % super.addressesInIndBlock < super.addressesInIndBlock := Nat.mod_lt n pos
  have double (n : Nat) : n % super.addressesInDindBlock < super.addressesInDindBlock := Nat.mod_lt n square
  unfold helperAsserts
  simp only [Super.maxTindBlock] at limit
  split
  next => simp
  next =>
    split
    next below =>
      simp only [Super.maxIndBlock] at below
      simp only [List.mem_singleton, forall_eq]
      omega
    next =>
      split
      next below =>
        simp only [Super.maxDindBlock] at below
        simp only [List.mem_cons, List.not_mem_nil, or_false, forall_eq_or_imp, forall_eq]
        exact ⟨by omega, single _⟩
      next =>
        simp only [List.mem_cons, List.not_mem_nil, or_false, forall_eq_or_imp, forall_eq]
        exact ⟨by omega, double _, single _⟩

theorem radixLookup {fs : Fs} {inode : Inode} (flag : inode.flags.testBit ext4ExtentsFlBit = false)
    (room : inode.block.length = 60) (pos : 0 < fs.super.addressesInIndBlock) {lblock : Nat}
    (limit : lblock < fs.super.maxTindBlock) (inside : lblock ≤ fs.super.bytes2Blocks inode.size)
    {path : Nat × List Nat} (leads : radixPath fs.super.addressesInIndBlock lblock = some path) :
    RadixLookup fs inode lblock path := by
  have walks (fuel : Nat) : inodeGetDataPblock fs inode lblock fuel =
      radixWalk fs inode (.iBlock path.1) path.2 >>= fun entry => .ok (entry, 1) := by
    have leads' := (blockPath_eq_radixPath limit).trans leads
    have shape := radixPath_shape pos leads
    have root : iBlock inode path.1 = .ok (slotWord inode path.1) :=
      load_inside (by have := shape.root; omega)
    rw [inodeGetDataPblock, if_neg (by simp [flag]), blockMapPblock_eq room inside leads', radixWalk_eq, Slot.read,
      root]
    rfl
  refine ⟨walks, ?_, helperAsserts_hold pos limit⟩
  intro there fuel
  rw [walks, radixWalk_onDevice there]
  rfl

/-! ## Slots of different blocks -/

theorem mem_slotsRead {fs : Fs} {inode : Inode} {slot passed : Slot} {digits : List Nat} :
    passed ∈ slotsRead fs inode slot digits ↔ ∃ upper, upper <+: digits ∧ entrySlot fs inode slot upper = passed := by
  rw [slotsRead_eq, List.mem_map]
  simp only [List.mem_inits]

theorem entrySlot_concat (fs : Fs) (inode : Inode) (slot : Slot) (upper : List Nat) (digit : Nat) :
    entrySlot fs inode slot (upper ++ [digit]) =
      .disk (pointerPos fs ((entrySlot fs inode slot upper).word fs inode) digit) := by
  unfold entrySlot
  rw [List.foldl_append]
  rfl

theorem pointerPos_injective {fs : Fs} (words : fs.super.blockSize = fs.super.addressesInIndBlock * 4)
    {pointer pointer' digit digit' : Nat} (less : digit < fs.super.addressesInIndBlock)
    (less' : digit' < fs.super.addressesInIndBlock)
    (same : pointerPos fs pointer digit = pointerPos fs pointer' digit') : pointer = pointer' ∧ digit = digit' := by
  unfold pointerPos Super.blocks2Bytes at same
  rw [words] at same
  have pos : 0 < fs.super.addressesInIndBlock := by omega
  have scaled : pointer * fs.super.addressesInIndBlock + digit = pointer' * fs.super.addressesInIndBlock + digit' := by
    rw [← Nat.mul_assoc, ← Nat.mul_assoc] at same
    omega
  have quotient := congrArg (· / fs.super.addressesInIndBlock) scaled
  have remainder := congrArg (· % fs.super.addressesInIndBlock) scaled
  simp only [Nat.mul_comm _ fs.super.addressesInIndBlock, Nat.mul_add_div pos, Nat.mul_add_mod,
    Nat.div_eq_of_lt less, Nat.div_eq_of_lt less', Nat.mod_eq_of_lt less, Nat.mod_eq_of_lt less'] at quotient remainder
  exact ⟨by omega, remainder⟩

theorem prefix_concat_ne {digits upper : List Nat} {digit : Nat} (before : upper ++ [digit] <+: digits) :
    upper <+: digits ∧ upper ≠ digits ∧ digit ∈ digits := by
  refine ⟨(List.prefix_append upper [digit]).trans before, ?_, before.subset (by simp)⟩
  rintro rfl
  have := before.length_le
  simp at this

-- A slot on the disk is known by its index block and its digit, so the slot of the entry can only
-- be passed by a path that begins with the same root and digits, and such a path ends there too.
theorem entrySlot_not_read {fs : Fs} {inode : Inode}
    (words : fs.super.blockSize = fs.super.addressesInIndBlock * 4) (pos : 0 < fs.super.addressesInIndBlock)
    {lblock other : Nat} {path path' : Nat × List Nat} (apart : lblock ≠ other)
    (leads : radixPath fs.super.addressesInIndBlock lblock = some path)
    (leads' : radixPath fs.super.addressesInIndBlock other = some path')
    (distinct : IndexBlocksDistinct fs inode path path') :
    entrySlot fs inode (.iBlock path.1) path.2 ∉ slotsRead fs inode (.iBlock path'.1) path'.2 := by
  have shape := radixPath_shape pos leads
  have shape' := radixPath_shape pos leads'
  have settle (root : path.1 = path'.1) (digits : path.2 <+: path'.2) : False := by
    have lengths : path.2.length = path'.2.length := by rw [shape.length, shape'.length, root]
    have same : path = path' := Prod.ext root (digits.eq_of_length lengths)
    exact apart (radixPath_injective pos leads (same ▸ leads'))
  intro read
  obtain ⟨upper', before', same⟩ := mem_slotsRead.mp read
  rcases List.eq_nil_or_concat path.2 with direct | ⟨upper, digit, indirect⟩
  · rcases List.eq_nil_or_concat upper' with rfl | ⟨upper', digit', rfl⟩
    · rw [direct] at same
      apply settle (Slot.iBlock.inj same).symm
      rw [direct]
      exact List.nil_prefix
    · rw [List.concat_eq_append, entrySlot_concat, direct] at same
      cases same
  · rw [List.concat_eq_append] at indirect
    have whole : upper ++ [digit] <+: path.2 := by rw [indirect]
    obtain ⟨before, proper, member⟩ := prefix_concat_ne whole
    rcases List.eq_nil_or_concat upper' with rfl | ⟨upper', digit', rfl⟩
    · rw [indirect, entrySlot_concat] at same
      cases same
    · rw [List.concat_eq_append] at before' same
      obtain ⟨shorter', proper', member'⟩ := prefix_concat_ne before'
      rw [indirect, entrySlot_concat, entrySlot_concat] at same
      obtain ⟨block, rfl⟩ := pointerPos_injective words (shape'.digits digit' member') (shape.digits digit member)
        (Slot.disk.inj same)
      obtain ⟨root, rfl⟩ := distinct upper upper' before proper shorter' proper' block.symm
      exact settle root (indirect ▸ before')

theorem block_map_lookup {fs : Fs} {inode : Inode} {k : Nat} (size : fs.super.blockSize = 2 ^ k) (large : 10 ≤ k)
    (flag : inode.flags.testBit ext4ExtentsFlBit = false) (room : inode.block.length = 60) {lblock : Nat}
    (limit : lblock < fs.super.maxTindBlock) (inside : lblock ≤ fs.super.bytes2Blocks inode.size) :
    ∃ path, radixPath (fs.super.blockSize / 4) lblock = some path ∧ RadixLookup fs inode lblock path ∧
      ∀ other path', other ≠ lblock → radixPath (fs.super.blockSize / 4) other = some path' →
        IndexBlocksDistinct fs inode path path' →
          entrySlot fs inode (.iBlock path.1) path.2 ∉ slotsRead fs inode (.iBlock path'.1) path'.2 := by
  obtain ⟨e, rfl⟩ : ∃ e, k = e + 2 := ⟨k - 2, by omega⟩
  have quarter : fs.super.addressesInIndBlock = 2 ^ e := by
    rw [Super.addressesInIndBlock, size, pow_add]
    exact Nat.mul_div_cancel _ (by norm_num)
  have pos : 0 < fs.super.addressesInIndBlock := quarter ▸ Nat.two_pow_pos e
  have words : fs.super.blockSize = fs.super.addressesInIndBlock * 4 := by
    rw [size, quarter, pow_add]
    norm_num
  obtain ⟨root, digits, leads⟩ := blockPath_isSome limit
  rw [blockPath_eq_radixPath limit] at leads
  refine ⟨(root, digits), leads, radixLookup flag room pos limit inside leads, ?_⟩
  intro other path' apart leads' distinct
  exact entrySlot_not_read words pos apart.symm leads leads' distinct

/-- The single indirect block is block 30, where the second word holds 77. The triple one is block 31,
and leads by blocks 32 and 33 to the number 99. -/
def indirectFs : Fs :=
  { twoLeafFs with disk := { twoLeafFs.disk with
      byte := imageByte [(30724, leBytes 4 77), (31748, leBytes 4 32), (32776, leBytes 4 33), (33804, leBytes 4 99)] } }

def indirectInode : Inode := ⟨0x81a4, 135020544, 0, List.replicate 48 0 ++ leBytes 4 30 ++ leBytes 4 0 ++ leBytes 4 31⟩

theorem block_map_lookup_indirect : inodeGetDataPblock indirectFs indirectInode 13 0 = .ok (77, 1) ∧
    Slot.disk 30724 ∉ slotsRead indirectFs indirectInode (.iBlock 12) [0] ∧
    inodeGetDataPblock indirectFs indirectInode 131855 0 = .ok (99, 1) := by
  obtain ⟨path, leads, lookup, apart⟩ :=
    @block_map_lookup indirectFs indirectInode 10 rfl (by decide) (by decide) (by decide) 13 (by decide) (by decide)
  obtain rfl : (12, [1]) = path := Option.some.inj ((show radixPath 256 13 = _ by decide).symm.trans leads)
  obtain ⟨triple, leads', lookup', _⟩ :=
    @block_map_lookup indirectFs indirectInode 10 rfl (by decide) (by decide) (by decide) 131855 (by decide) (by decide)
  obtain rfl : (14, [1, 2, 3]) = triple := Option.some.inj ((show radixPath 256 131855 = _ by decide).symm.trans leads')
  refine ⟨?_, ?_, ?_⟩
  · refine lookup.returns ?_ 0
    intro slot member
    simp only [slotsRead, List.mem_cons, List.not_mem_nil, or_false] at member
    rcases member with rfl | rfl
    · exact (by decide : 52 ≤ 60)
    · exact (by decide +kernel : pointerPos indirectFs (slotWord indirectInode 12) 1 + 4 ≤ indirectFs.disk.size)
  · refine apart 12 (12, [0]) (by decide) (by decide) ?_
    intro upper upper' before proper before' proper' _
    refine ⟨rfl, ?_⟩
    have empty (digit : Nat) (upper : List Nat) (before : upper <+: [digit]) (proper : upper ≠ [digit]) :
        upper = [] := by
      rcases List.prefix_cons_iff.mp before with rfl | ⟨rest, rfl, nothing⟩
      · rfl
      · exact absurd (by rw [List.prefix_nil.mp nothing]) proper
    rw [empty 1 upper before proper, empty 0 upper' before' proper']
  · refine lookup'.returns ?_ 0
    intro slot member
    simp only [slotsRead, List.mem_cons, List.not_mem_nil, or_false] at member
    rcases member with rfl | rfl | rfl | rfl
    · exact (by decide : 60 ≤ 60)
    · exact (by decide +kernel : 31748 + 4 ≤ indirectFs.disk.size)
    · exact (by decide +kernel : 32776 + 4 ≤ indirectFs.disk.size)
    · exact (by decide +kernel : 33804 + 4 ≤ indirectFs.disk.size)

end SampleFs.Proof.Fuse

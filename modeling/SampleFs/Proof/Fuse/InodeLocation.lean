import SampleFs.Proof.Fuse.AlignedRead

namespace SampleFs.Proof.Fuse
open Lib SampleFs.Fuse

/-! ## Where the format keeps an inode -/

/-- The fields of a superblock are as wide as they are on disk, and no group is empty. -/
structure FieldsValid (super : Super) : Prop where
  blocksCountLo : super.blocksCountLo < 2 ^ 32
  blocksPerGroup : super.blocksPerGroup < 2 ^ 32
  inodesPerGroup : super.inodesPerGroup < 2 ^ 32
  descSize : super.descSize < 2 ^ 16
  blocks : 0 < super.blocksPerGroup
  inodes : 0 < super.inodesPerGroup

section
variable (super : Super)

def groupCount : Nat := (super.blocksCountLo + super.blocksPerGroup - 1) / super.blocksPerGroup

def stride : Nat := if super.descSize = 0 then 32 else super.descSize

-- The table begins with the first block behind the superblock.
def tableStart : Nat := max (bootSectorSize + superBlockBytes) super.blockSize

def IsInode (n : Nat) : Prop := 1 ≤ n ∧ n ≤ super.inodesPerGroup * groupCount super ∧ n < 2 ^ 32

def inodeGroup (n : Nat) : Nat := (n - 1) / super.inodesPerGroup

def inodeIndex (n : Nat) : Nat := (n - 1) % super.inodesPerGroup

def inodeLength : Nat := min super.inodeSize inodeBytes

def tableLo (disk : Disk) (group : Nat) : Nat :=
  wordAt disk (tableStart super + group * stride super + 8)

def inodeTable (disk : Disk) (group : Nat) : Nat := super.blockSize * tableLo super disk group

def inodePos (disk : Disk) (n : Nat) : Nat :=
  inodeTable super disk (inodeGroup super n) + inodeIndex super n * super.inodeSize

def Apart (a b size : Nat) : Prop := a + size ≤ b ∨ b + size ≤ a

def TablesApart (disk : Disk) : Prop :=
  ∀ g h, g < groupCount super → h < groupCount super → g ≠ h →
    Apart (inodeTable super disk g) (inodeTable super disk h) (super.inodesPerGroup * super.inodeSize)

end

/-! ## Where the code reads it -/

def inodeOffset (fs : Fs) (n : Nat) : Exec Fault Nat := do
  let n := n % 2 ^ 32 - 1
  let table ← superGroupInodeTableOffset fs n
  return table + n % fs.super.inodesPerGroup * fs.super.inodeSize % 2 ^ 32

def readInode (fs : Fs) (off : Nat) : Exec Fault (Option Inode) := do
  let raw ← diskRead fs.disk off (inodeLength fs.super)
  some <$> decodeInode raw

theorem inodeGetByNumber_eq {fs : Fs} {n : Nat} (nonzero : n % 2 ^ 32 ≠ 0) :
    inodeGetByNumber fs n = inodeOffset fs n >>= readInode fs := by
  rw [inodeGetByNumber, if_neg nonzero, inodeOffset, bind_assoc]
  rfl

/-- Once the group descriptors are filled in, every inode is read from its place, and different inodes
from disjoint ranges. -/
structure InodesLocated (super : Super) : Prop where
  fills : ∃ disk gdescTable, superGroupFill disk super = .ok gdescTable
  reads : ∀ disk gdescTable, superGroupFill disk super = .ok gdescTable → ∀ n, IsInode super n →
    inodeOffset ⟨disk, super, gdescTable⟩ n = .ok (inodePos super disk n) ∧
      (inodePos super disk n + inodeLength super ≤ disk.size → inodeGetByNumber ⟨disk, super, gdescTable⟩ n =
        some <$> decodeInode (disk.bytes (inodePos super disk n) (inodeLength super)))
  apart : ∀ disk gdescTable, superGroupFill disk super = .ok gdescTable → TablesApart super disk →
    ∀ m n, IsInode super m → IsInode super n → m ≠ n →
      ∀ a b, inodeOffset ⟨disk, super, gdescTable⟩ m = .ok a → inodeOffset ⟨disk, super, gdescTable⟩ n = .ok b →
        Apart a b (inodeLength super)

/-- Nothing wraps on the way to the inode, and its group is the first or the descriptors have the size
that the code takes them to have. -/
def Addressable (super : Super) (n : Nat) : Prop :=
  inodeIndex super n * super.inodeSize < 2 ^ 32 ∧
    (inodeGroup super n = 0 ∨ super.blocksCountLo + super.blocksPerGroup ≤ 2 ^ 32 ∧
      (super.descSize = 0 ∨ super.descSize = groupDescBytes) ∧ inodeGroup super n * stride super < 2 ^ 32)

/-! ## Group descriptors -/

section
variable {super : Super} {disk : Disk}

def descPos (super : Super) (i : Nat) : Nat :=
  super.alignToBlockSize (bootSectorSize + superBlockBytes) + i * super.groupDescSize % 2 ^ 32

theorem groupDescSize_bounds : 12 ≤ super.groupDescSize ∧ super.groupDescSize ≤ 64 := by
  unfold Super.groupDescSize
  split
  · decide
  · decide

theorem groupDesc_inside {i : Nat} (inside : descPos super i + super.groupDescSize ≤ disk.size) :
    groupDesc disk super i = .ok (wordAt disk (descPos super i + 8)) := by
  obtain ⟨least, most⟩ := @groupDescSize_bounds super
  unfold descPos at inside
  rw [groupDesc]
  simp only [diskRead_ok (show super.groupDescSize ≤ preadMax from most.trans (by decide)) inside, Exec.ok_bind]
  rw [load_inside (by rw [Disk.length_bytes]; omega), Disk.bytes_slice disk (by omega)]
  rfl

theorem groupDesc_ok {i value : Nat} (returns : groupDesc disk super i = .ok value) :
    descPos super i + super.groupDescSize ≤ disk.size := by
  obtain ⟨raw, reads, _⟩ := Exec.bind_eq_ok.mp returns
  obtain ⟨_, passes, _⟩ := Exec.bind_eq_ok.mp reads
  have bounds := @groupDescSize_bounds super
  exact (Exec.check_eq_ok.mp passes).2.2.resolve_left (by omega)

theorem superGroupFill_eq (positive : super.blockSize ≠ 0)
    (inside : ∀ i < super.nBlockGroups, descPos super i + super.groupDescSize ≤ disk.size) :
    superGroupFill disk super =
      .ok ((List.range super.nBlockGroups).map fun i => wordAt disk (descPos super i + 8)) := by
  rw [superGroupFill, Exec.check_pos _ positive, Exec.ok_bind]
  exact Exec.mapM_eq_map fun i member => groupDesc_inside (inside i (List.mem_range.mp member))

theorem superGroupFill_ok {gdescTable : List Nat} (fills : superGroupFill disk super = .ok gdescTable) :
    super.blockSize ≠ 0 ∧
      gdescTable = (List.range super.nBlockGroups).map fun i => wordAt disk (descPos super i + 8) := by
  obtain ⟨_, passes, reads⟩ := Exec.bind_eq_ok.mp fills
  have positive := Exec.check_eq_ok.mp passes
  refine ⟨positive, ?_⟩
  have inside : ∀ i < super.nBlockGroups, descPos super i + super.groupDescSize ≤ disk.size := by
    intro i less
    obtain ⟨value, returns⟩ := Exec.mapM_returns reads i (List.mem_range.mpr less)
    exact groupDesc_ok returns
  rw [superGroupFill_eq positive inside] at fills
  exact (Exec.ok.inj fills).symm

theorem blockSize_of_shift (small : super.blockShift ≤ 31) : super.blockSize = 2 ^ super.blockShift := by
  have le : 2 ^ super.blockShift ≤ 2 ^ 31 := Nat.pow_le_pow_right (by decide) small
  exact Nat.mod_eq_of_lt (by omega)

theorem shift_of_blockSize (positive : super.blockSize ≠ 0) : super.blockShift ≤ 31 := by
  by_contra large
  apply positive
  obtain ⟨rest, split⟩ := Nat.exists_eq_add_of_le (show 32 ≤ super.blockShift by omega)
  rw [Super.blockSize, split, Nat.pow_add, Nat.mul_mod_right]

theorem align_eq (small : super.blockShift ≤ 31) :
    super.alignToBlockSize (bootSectorSize + superBlockBytes) = tableStart super := by
  have size := blockSize_of_shift small
  have bytes : bootSectorSize + superBlockBytes = 2 ^ 11 := rfl
  rw [Super.alignToBlockSize, tableStart, bytes]
  by_cases short : super.blockShift ≤ 11
  · have divides : 2 ^ super.blockShift ∣ 2 ^ 11 := Nat.pow_dvd_pow 2 short
    have most : super.blockSize ≤ 2 ^ 11 := by
      rw [size]
      exact Nat.pow_le_pow_right (by decide) short
    rw [if_neg (by rw [size, Nat.mod_eq_zero_of_dvd divides]; decide), Nat.max_eq_left most]
  · have below : 2 ^ 11 < super.blockSize := by
      rw [size]
      exact Nat.pow_lt_pow_right (by decide) (by omega)
    rw [Nat.mod_eq_of_lt below, if_pos (by decide), Nat.mod_eq_of_lt (show 2 ^ 11 < 2 ^ 32 by decide),
      Nat.div_eq_of_lt below, Nat.zero_mul, Nat.zero_add, Nat.max_eq_right below.le]

theorem nBlockGroups_eq (fits : super.blocksCountLo + super.blocksPerGroup ≤ 2 ^ 32) :
    super.nBlockGroups = if groupCount super ≠ 0 then groupCount super else 1 := by
  rw [Super.nBlockGroups, Nat.mod_eq_of_lt (by omega)]
  rfl

theorem nBlockGroups_wraps (fields : FieldsValid super) (wraps : 2 ^ 32 < super.blocksCountLo + super.blocksPerGroup) :
    super.nBlockGroups = 1 := by
  have count := fields.blocksCountLo
  have blocks := fields.blocksPerGroup
  have left : (super.blocksCountLo + super.blocksPerGroup - 1) % 2 ^ 32 < super.blocksPerGroup := by omega
  rw [Super.nBlockGroups, Nat.div_eq_of_lt left]
  rfl

theorem IsInode.group_lt {n : Nat} (isInode : IsInode super n) : inodeGroup super n < groupCount super := by
  obtain ⟨least, most, _⟩ := isInode
  apply Nat.div_lt_of_lt_mul
  omega

theorem group_lt_nBlockGroups (fields : FieldsValid super) {n : Nat} (isInode : IsInode super n) :
    inodeGroup super n < super.nBlockGroups ↔
      inodeGroup super n = 0 ∨ super.blocksCountLo + super.blocksPerGroup ≤ 2 ^ 32 := by
  have less := isInode.group_lt
  by_cases fits : super.blocksCountLo + super.blocksPerGroup ≤ 2 ^ 32
  · rw [nBlockGroups_eq fits, if_pos (by omega)]
    exact iff_of_true less (.inr fits)
  · rw [nBlockGroups_wraps fields (by omega)]
    omega

theorem inodeOffset_eq {gdescTable : List Nat} (inodes : 0 < super.inodesPerGroup)
    (fills : superGroupFill disk super = .ok gdescTable) {n : Nat} (isInode : IsInode super n) :
    inodeOffset ⟨disk, super, gdescTable⟩ n =
      if inodeGroup super n < super.nBlockGroups then
        .ok (super.blocks2Bytes (wordAt disk (descPos super (inodeGroup super n) + 8)) +
          inodeIndex super n * super.inodeSize % 2 ^ 32)
      else .fail .assertFailed := by
  obtain ⟨_, rfl⟩ := superGroupFill_ok fills
  rw [inodeOffset, Nat.mod_eq_of_lt isInode.2.2]
  simp only [superGroupInodeTableOffset, Exec.check_pos _ inodes.ne', Exec.ok_bind]
  by_cases less : inodeGroup super n < super.nBlockGroups
  · rw [if_pos less]
    unfold inodeGroup at less
    have stored : ((List.range super.nBlockGroups).map fun i => wordAt disk (descPos super i + 8))[
        (n - 1) / super.inodesPerGroup]? =
          some (wordAt disk (descPos super ((n - 1) / super.inodesPerGroup) + 8)) := by
      rw [List.getElem?_map, List.getElem?_range less]
      rfl
    simp only [Exec.check_pos _ less, Exec.ok_bind, stored]
    rfl
  · rw [if_neg less]
    unfold inodeGroup at less
    simp only [Exec.check_neg _ less, Exec.fail_bind]

/-! ## The condition is enough -/

theorem Addressable.offset (fields : FieldsValid super) (small : super.blockShift ≤ 31) {gdescTable : List Nat}
    (fills : superGroupFill disk super = .ok gdescTable) {n : Nat} (isInode : IsInode super n)
    (addressable : Addressable super n) :
    inodeOffset ⟨disk, super, gdescTable⟩ n = .ok (inodePos super disk n) := by
  obtain ⟨index, group⟩ := addressable
  have less : inodeGroup super n < super.nBlockGroups := by
    apply (group_lt_nBlockGroups fields isInode).mpr
    rcases group with first | ⟨fits, _⟩
    · exact .inl first
    · exact .inr fits
  have place : descPos super (inodeGroup super n) = tableStart super + inodeGroup super n * stride super := by
    rw [descPos, align_eq small]
    rcases group with first | ⟨_, size, fits⟩
    · rw [first, Nat.zero_mul, Nat.zero_mul, Nat.zero_mod]
    · have same : super.groupDescSize = stride super := by
        unfold Super.groupDescSize stride
        rcases size with zero | whole
        · rw [if_pos zero, if_pos zero]
          rfl
        · rw [whole]
          rfl
      rw [same, Nat.mod_eq_of_lt fits]
  rw [inodeOffset_eq fields.inodes fills isInode, if_pos less, place, Nat.mod_eq_of_lt index, Super.blocks2Bytes,
    Nat.mul_comm]
  rfl

theorem inodePos_apart (inodes : 0 < super.inodesPerGroup) (tables : TablesApart super disk) {m n : Nat}
    (left : IsInode super m) (right : IsInode super n) (different : m ≠ n) :
    Apart (inodePos super disk m) (inodePos super disk n) (inodeLength super) := by
  have short : inodeLength super ≤ super.inodeSize := Nat.min_le_left ..
  have inside (k : Nat) : inodeIndex super k * super.inodeSize + super.inodeSize ≤
      super.inodesPerGroup * super.inodeSize := by
    rw [← Nat.succ_mul]
    exact Nat.mul_le_mul_right _ (Nat.mod_lt _ inodes)
  have insideM := inside m
  have insideN := inside n
  unfold Apart inodePos
  by_cases same : inodeGroup super m = inodeGroup super n
  · have other : inodeIndex super m ≠ inodeIndex super n := by
      intro index
      have numberM := Nat.div_add_mod (m - 1) super.inodesPerGroup
      have numberN := Nat.div_add_mod (n - 1) super.inodesPerGroup
      unfold inodeGroup at same
      unfold inodeIndex at index
      rw [same, index, numberN] at numberM
      have := left.1
      have := right.1
      omega
    rw [same]
    rcases Nat.lt_or_gt_of_ne other with less | greater
    · have step := Nat.mul_le_mul_right super.inodeSize less
      rw [Nat.succ_mul] at step
      omega
    · have step := Nat.mul_le_mul_right super.inodeSize greater
      rw [Nat.succ_mul] at step
      omega
  · rcases tables _ _ left.group_lt right.group_lt same with before | behind
    · omega
    · omega

/-- A device on which every descriptor can be read. -/
def probeDisk (byte : Nat → UInt8) : Disk := ⟨2 ^ 62, byte, by decide⟩

theorem probeDisk_fills (positive : super.blockSize ≠ 0) (byte : Nat → UInt8) :
    ∃ gdescTable, superGroupFill (probeDisk byte) super = .ok gdescTable := by
  refine ⟨_, superGroupFill_eq positive ?_⟩
  intro i _
  have bounds := @groupDescSize_bounds super
  have small : super.blockSize < 2 ^ 32 := Nat.mod_lt _ (by decide)
  have start : tableStart super ≤ 2 ^ 32 := Nat.max_le.mpr ⟨by decide, small.le⟩
  rw [descPos, align_eq (shift_of_blockSize positive)]
  show _ ≤ 2 ^ 62
  omega

theorem inodesLocated_of_addressable (fields : FieldsValid super) (small : super.blockShift ≤ 31)
    (addressable : ∀ n, IsInode super n → Addressable super n) : InodesLocated super := by
  have positive : super.blockSize ≠ 0 := by
    rw [blockSize_of_shift small]
    exact (Nat.two_pow_pos _).ne'
  have offset (disk : Disk) (gdescTable : List Nat) (fills : superGroupFill disk super = .ok gdescTable) (n : Nat)
      (isInode : IsInode super n) : inodeOffset ⟨disk, super, gdescTable⟩ n = .ok (inodePos super disk n) :=
    (addressable n isInode).offset fields small fills isInode
  refine ⟨⟨_, probeDisk_fills positive fun _ => 0⟩, ?_, ?_⟩
  · intro disk gdescTable fills n isInode
    have reads := offset disk gdescTable fills n isInode
    have nonzero : n % 2 ^ 32 ≠ 0 := by
      have := isInode.1
      have := isInode.2.2
      omega
    refine ⟨reads, ?_⟩
    intro inside
    have short : inodeLength super ≤ inodeBytes := Nat.min_le_right ..
    rw [inodeGetByNumber_eq nonzero, reads, Exec.ok_bind, readInode,
      diskRead_ok (short.trans (by decide)) inside, Exec.ok_bind]
  · intro disk gdescTable fills tables m n left right different a b readsM readsN
    rw [offset disk gdescTable fills m left] at readsM
    rw [offset disk gdescTable fills n right] at readsN
    cases readsM
    cases readsN
    exact inodePos_apart fields.inodes tables left right different

/-! ## The condition is needed -/

theorem wordAt_eq (byte : Nat → UInt8) (pos : Nat) : wordAt (probeDisk byte) pos = (byte pos).toNat +
    256 * ((byte (pos + 1)).toNat + 256 * ((byte (pos + 2)).toNat + 256 * (byte (pos + 3)).toNat)) := by
  simp [wordAt, Disk.bytes, probeDisk, List.range_succ, littleEndian]

def mark (pos i : Nat) : UInt8 := if i = pos then 1 else 0

theorem wordAt_mark (pos other : Nat) : wordAt (probeDisk (mark pos)) other = 1 ↔ other = pos := by
  rw [wordAt_eq]
  constructor
  · intro one
    by_contra different
    have zero : mark pos other = 0 := if_neg different
    rw [zero, show (0 : UInt8).toNat = 0 from rfl] at one
    omega
  · rintro rfl
    simp [mark]

theorem InodesLocated.offsets (located : InodesLocated super) (inodes : 0 < super.inodesPerGroup) (byte : Nat → UInt8)
    {n : Nat} (isInode : IsInode super n) : inodeGroup super n < super.nBlockGroups ∧
      super.blockSize * wordAt (probeDisk byte) (descPos super (inodeGroup super n) + 8) +
        inodeIndex super n * super.inodeSize % 2 ^ 32 = inodePos super (probeDisk byte) n := by
  obtain ⟨disk, gdescTable, fills⟩ := located.fills
  obtain ⟨gdescTable, fills⟩ := probeDisk_fills (superGroupFill_ok fills).1 byte
  have reads := (located.reads _ _ fills n isInode).1
  rw [inodeOffset_eq inodes fills isInode, Super.blocks2Bytes, Nat.mul_comm] at reads
  by_cases less : inodeGroup super n < super.nBlockGroups
  · rw [if_pos less] at reads
    exact ⟨less, Exec.ok.inj reads⟩
  · rw [if_neg less] at reads
    cases reads

theorem InodesLocated.index (located : InodesLocated super) (inodes : 0 < super.inodesPerGroup) {n : Nat}
    (isInode : IsInode super n) : inodeIndex super n * super.inodeSize < 2 ^ 32 := by
  have place := (located.offsets inodes (fun _ => 0) isInode).2
  have zero (pos : Nat) : wordAt (probeDisk fun _ => 0) pos = 0 := by
    rw [wordAt_eq]
    rfl
  rw [inodePos, inodeTable, tableLo, zero, zero, Nat.mul_zero, Nat.zero_add, Nat.zero_add] at place
  rw [← place]
  exact Nat.mod_lt _ (by decide)

/-- A single marked byte tells where the code takes a descriptor from. -/
theorem InodesLocated.descriptor (located : InodesLocated super) (inodes : 0 < super.inodesPerGroup) {n : Nat}
    (isInode : IsInode super n) : inodeGroup super n * super.groupDescSize % 2 ^ 32 = inodeGroup super n * stride super := by
  obtain ⟨disk, gdescTable, fills⟩ := located.fills
  have positive := (superGroupFill_ok fills).1
  have place := (located.offsets inodes (mark (descPos super (inodeGroup super n) + 8)) isInode).2
  rw [(wordAt_mark _ _).mpr rfl, Nat.mod_eq_of_lt (located.index inodes isInode), inodePos, inodeTable] at place
  have word := Nat.eq_of_mul_eq_mul_left (Nat.pos_of_ne_zero positive) (Nat.add_right_cancel place)
  have same := (wordAt_mark _ _).mp word.symm
  rw [descPos, align_eq (shift_of_blockSize positive)] at same
  omega

theorem InodesLocated.addressable (fields : FieldsValid super) (located : InodesLocated super) :
    super.blockShift ≤ 31 ∧ ∀ n, IsInode super n → Addressable super n := by
  have inodes := fields.inodes
  obtain ⟨disk, gdescTable, fills⟩ := located.fills
  refine ⟨shift_of_blockSize (superGroupFill_ok fills).1, ?_⟩
  intro n isInode
  refine ⟨located.index inodes isInode, ?_⟩
  by_cases first : inodeGroup super n = 0
  · exact .inl first
  · right
    have less := (located.offsets inodes (fun _ => 0) isInode).1
    have fits := ((group_lt_nBlockGroups fields isInode).mp less).resolve_left first
    refine ⟨fits, ?_, ?_⟩
    · -- the first inode of the second group shows the stride
      have beyond : super.inodesPerGroup ≤ n - 1 := by
        by_contra inside
        exact first (Nat.div_eq_of_lt (Nat.lt_of_not_le inside))
      obtain ⟨least, most, word⟩ := isInode
      have second : IsInode super (super.inodesPerGroup + 1) := ⟨by omega, by omega, by omega⟩
      have one : inodeGroup super (super.inodesPerGroup + 1) = 1 := Nat.div_self inodes
      have size := located.descriptor inodes second
      have bounds := @groupDescSize_bounds super
      rw [one, Nat.one_mul, Nat.one_mul, Nat.mod_eq_of_lt (by omega)] at size
      unfold Super.groupDescSize stride at size
      by_cases zero : super.descSize = 0
      · exact .inl zero
      · rw [if_neg zero, if_neg zero] at size
        exact .inr size.symm
    · rw [← located.descriptor inodes isInode]
      exact Nat.mod_lt _ (by decide)

theorem inode_location (fields : FieldsValid super) :
    InodesLocated super ↔ super.blockShift ≤ 31 ∧ ∀ n, IsInode super n → Addressable super n := by
  constructor
  · exact InodesLocated.addressable fields
  · intro condition
    exact inodesLocated_of_addressable fields condition.1 condition.2

end

def groupedSuper : Super := ⟨64, 0, 16, 16, 128, 0⟩

theorem inode_location_grouped : InodesLocated groupedSuper := by
  have fields : FieldsValid groupedSuper := ⟨by decide, by decide, by decide, by decide, by decide, by decide⟩
  refine (inode_location fields).mpr ⟨by decide, ?_⟩
  rintro n ⟨_, most, _⟩
  have bound : n ≤ 64 := most
  unfold Addressable inodeIndex inodeGroup
  refine ⟨?_, .inr ⟨by decide, .inl rfl, ?_⟩⟩
  · show (n - 1) % 16 * 128 < 2 ^ 32
    omega
  · show (n - 1) / 16 * 32 < 2 ^ 32
    omega

/-! ## A full volume -/

/-- As many blocks as 32 bits can count, in groups of 32768. -/
def fullSuper : Super := ⟨2 ^ 32 - 1, 2, 32768, 8192, 256, 0⟩

theorem inode_location_wraps : FieldsValid fullSuper ∧ IsInode fullSuper 8193 ∧ groupCount fullSuper = 131072 ∧
    fullSuper.nBlockGroups = 1 ∧ ¬ InodesLocated fullSuper := by
  have isInode : IsInode fullSuper 8193 := ⟨by decide, by decide, by decide⟩
  refine ⟨⟨by decide, by decide, by decide, by decide, by decide, by decide⟩, isInode, by decide, by decide, ?_⟩
  intro located
  have less := (located.offsets (by decide) (fun _ => 0) isInode).1
  exact absurd less (by decide)

end SampleFs.Proof.Fuse

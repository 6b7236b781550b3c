import SampleFs.Fuse.FuseMain
import SampleFs.Proof.Fuse.InodeLocation

namespace SampleFs.Proof.Fuse
open Lib SampleFs.Fuse

def fieldAt (disk : Disk) (pos width : Nat) : Nat := littleEndian (disk.bytes pos width)

/-- The fields of the superblock, at their offsets on the disk. -/
def superOf (disk : Disk) : Super where
  blocksCountLo := fieldAt disk 1028 4
  logBlockSize := fieldAt disk 1048 4
  blocksPerGroup := fieldAt disk 1056 4
  inodesPerGroup := fieldAt disk 1064 4
  inodeSize := fieldAt disk 1112 2
  descSize := fieldAt disk 1278 2

def mountedFs (disk : Disk) : Fs :=
  ⟨disk, superOf disk, (List.range (superOf disk).nBlockGroups).map fun i => wordAt disk (descPos (superOf disk) i + 8)⟩

/-- The superblock and the group descriptors are on the disk. Their offset is kept in 32 bits, so a table
of more than 4 GiB starts over. -/
structure Mountable (disk : Disk) : Prop where
  superblock : bootSectorSize + superBlockBytes ≤ disk.size
  magic : fieldAt disk 1080 2 = ext4Magic
  blocksPerGroup : (superOf disk).blocksPerGroup ≠ 0
  blockSize : (superOf disk).blockShift ≤ 31
  table : (superOf disk).alignToBlockSize (bootSectorSize + superBlockBytes) +
    min ((superOf disk).nBlockGroups * (superOf disk).groupDescSize) (2 ^ 32) ≤ disk.size

variable {disk : Disk}

theorem diskRead_iff {start size : Nat} {bytes : List UInt8} (some : 0 < size) (small : size ≤ preadMax) :
    diskRead disk start size = .ok bytes ↔ start + size ≤ disk.size ∧ bytes = disk.bytes start size := by
  constructor
  · intro reads
    obtain ⟨_, passes, same⟩ := Exec.bind_eq_ok.mp reads
    have inside := (Exec.check_eq_ok.mp passes).2.2.resolve_left (by omega)
    exact ⟨inside, (Exec.ok.inj same).symm⟩
  · rintro ⟨inside, rfl⟩
    exact diskRead_ok small inside

theorem load_super {pos width : Nat} (inside : pos + width ≤ superBlockBytes) :
    load (disk.bytes bootSectorSize superBlockBytes) pos width = .ok (fieldAt disk (bootSectorSize + pos) width) := by
  rw [load_inside (by rwa [Disk.length_bytes]), Disk.bytes_slice disk inside]
  rfl

theorem superFill_iff {super : Super} : superFill disk = .ok super ↔
    bootSectorSize + superBlockBytes ≤ disk.size ∧ super = superOf disk ∧ super.blockShift < 64 ∧
      super.blocksPerGroup ≠ 0 := by
  constructor
  · intro returns
    obtain ⟨raw, reads, fills⟩ := Exec.bind_eq_ok.mp returns
    obtain ⟨inside, bytes⟩ := (diskRead_iff (by decide) (by decide)).mp reads
    rw [bytes, load_super (by decide), Exec.ok_bind, load_super (by decide), Exec.ok_bind, load_super (by decide),
      Exec.ok_bind, load_super (by decide), Exec.ok_bind, load_super (by decide), Exec.ok_bind,
      load_super (by decide), Exec.ok_bind] at fills
    obtain ⟨_, shifts, rest⟩ := Exec.bind_eq_ok.mp fills
    obtain ⟨_, passes, same⟩ := Exec.bind_eq_ok.mp rest
    cases same
    exact ⟨inside, rfl, Exec.check_eq_ok.mp shifts, Exec.check_eq_ok.mp passes⟩
  · rintro ⟨inside, rfl, shift, nonzero⟩
    refine Exec.bind_eq_ok.mpr ⟨_, diskRead_ok (by decide) inside, ?_⟩
    rw [load_super (by decide), Exec.ok_bind, load_super (by decide), Exec.ok_bind, load_super (by decide),
      Exec.ok_bind, load_super (by decide), Exec.ok_bind, load_super (by decide), Exec.ok_bind,
      load_super (by decide), Exec.ok_bind]
    exact Exec.bind_eq_ok.mpr ⟨(), Exec.check_pos _ shift, Exec.bind_eq_ok.mpr ⟨(), Exec.check_pos _ nonzero, rfl⟩⟩

/-- Records of a size that divides the modulus reach as far as their number says, but not past the modulus. -/
theorem wrapped_records {modulus size count room : Nat} (some : 0 < size) (records : 0 < count) (divides : size ∣ modulus)
    (positive : 0 < modulus) :
    (∀ i < count, i * size % modulus + size ≤ room) ↔ min (count * size) modulus ≤ room := by
  obtain ⟨whole, rfl⟩ := divides
  have many : 0 < whole := Nat.pos_of_mul_pos_left positive
  constructor
  · intro all
    have last := all (min count whole - 1) (by omega)
    have index : (min count whole - 1) * size + size = min count whole * size := by
      rw [← Nat.succ_mul, Nat.succ_eq_add_one, Nat.sub_add_cancel (by omega)]
    have capped : min count whole * size = min (count * size) (size * whole) := by
      rw [Nat.mul_comm size whole, Nat.mul_min_mul_right]
    have below : (min count whole - 1) * size < size * whole := by omega
    rw [Nat.mod_eq_of_lt below] at last
    omega
  · intro reach i less
    have rounded : i * size % (size * whole) = i % whole * size := by
      rw [Nat.mul_comm size whole, Nat.mul_mod_mul_right]
    have lower : i % whole ≤ i := Nat.mod_le i whole
    have inner : i % whole < whole := Nat.mod_lt i many
    have step : i % whole * size + size = (i % whole + 1) * size := (Nat.succ_mul ..).symm
    have first : (i % whole + 1) * size ≤ count * size := Nat.mul_le_mul_right size (by omega)
    have second : (i % whole + 1) * size ≤ size * whole := by
      rw [Nat.mul_comm size whole]
      exact Nat.mul_le_mul_right size inner
    omega

theorem blockSize_ne_zero {super : Super} : super.blockSize ≠ 0 ↔ super.blockShift ≤ 31 := by
  constructor
  · exact shift_of_blockSize
  · intro small
    rw [blockSize_of_shift small]
    exact (Nat.two_pow_pos _).ne'

theorem nBlockGroups_pos (super : Super) : 0 < super.nBlockGroups := by
  unfold Super.nBlockGroups
  simp only
  split
  next some => exact Nat.pos_of_ne_zero some
  next => decide

theorem superGroupFill_iff {super : Super} {gdescTable : List Nat} : superGroupFill disk super = .ok gdescTable ↔
    super.blockShift ≤ 31 ∧ super.alignToBlockSize (bootSectorSize + superBlockBytes) +
        min (super.nBlockGroups * super.groupDescSize) (2 ^ 32) ≤ disk.size ∧
      gdescTable = (List.range super.nBlockGroups).map fun i => wordAt disk (descPos super i + 8) := by
  have divides : super.groupDescSize ∣ 2 ^ 32 := by
    unfold Super.groupDescSize
    split <;> decide
  have some : 0 < super.groupDescSize := Nat.pos_of_dvd_of_pos divides (by decide)
  have reach : (∀ i < super.nBlockGroups, descPos super i + super.groupDescSize ≤ disk.size) ↔
      super.alignToBlockSize (bootSectorSize + superBlockBytes) +
        min (super.nBlockGroups * super.groupDescSize) (2 ^ 32) ≤ disk.size := by
    have records := @wrapped_records (2 ^ 32) super.groupDescSize super.nBlockGroups
      (disk.size - super.alignToBlockSize (bootSectorSize + superBlockBytes)) some (nBlockGroups_pos super) divides
      (by decide)
    have first := nBlockGroups_pos super
    have product := Nat.mul_pos first some
    constructor
    · intro all
      have origin := all 0 first
      have inside := records.mp fun i less => by
        have here := all i less
        unfold descPos at here
        omega
      unfold descPos at origin
      omega
    · intro inside i less
      have here := records.mpr (by omega) i less
      unfold descPos
      omega
  rw [← reach, ← blockSize_ne_zero]
  constructor
  · intro fills
    obtain ⟨positive, table⟩ := superGroupFill_ok fills
    obtain ⟨_, _, reads⟩ := Exec.bind_eq_ok.mp fills
    refine ⟨positive, ?_, table⟩
    intro i less
    obtain ⟨value, returns⟩ := Exec.mapM_returns reads i (List.mem_range.mpr less)
    exact groupDesc_ok returns
  · rintro ⟨positive, inside, rfl⟩
    exact superGroupFill_eq positive inside

/-- Exactly which images are mounted, and as what. -/
theorem mounts_exactly (disk : Disk) (fs : Fs) (s : Session) :
    fuseMain disk = .ok (some (fs, s)) ↔ Mountable disk ∧ fs = mountedFs disk ∧ s = ⟨inodeInit, []⟩ := by
  constructor
  · intro mounted
    obtain ⟨bytes, reads, checks⟩ := Exec.bind_eq_ok.mp mounted
    obtain ⟨_, rfl⟩ := (diskRead_iff (by decide) (by decide)).mp reads
    split at checks
    next => cases checks
    next magic =>
      obtain ⟨fs', inits, same⟩ := Exec.bind_eq_ok.mp checks
      obtain ⟨super, fills, groups⟩ := Exec.bind_eq_ok.mp inits
      obtain ⟨gdescTable, table, built⟩ := Exec.bind_eq_ok.mp groups
      obtain ⟨superblock, rfl, _, nonzero⟩ := superFill_iff.mp fills
      obtain ⟨blockSize, inside, rfl⟩ := superGroupFill_iff.mp table
      cases built
      cases same
      exact ⟨⟨superblock, not_not.mp magic, nonzero, blockSize, inside⟩, rfl, rfl⟩
  · rintro ⟨mountable, rfl, rfl⟩
    have superblock := mountable.superblock
    have reads : diskRead disk (bootSectorSize + 56) 2 = .ok (disk.bytes 1080 2) :=
      diskRead_ok (by decide) (Nat.le_trans (by decide) superblock)
    have shift := mountable.blockSize
    have fills := superFill_iff.mpr ⟨superblock, rfl, Nat.lt_of_le_of_lt shift (by decide), mountable.blocksPerGroup⟩
    have table := superGroupFill_iff.mpr ⟨mountable.blockSize, mountable.table, rfl⟩
    have magic : ¬ littleEndian (disk.bytes 1080 2) ≠ ext4Magic := not_not.mpr mountable.magic
    rw [fuseMain, reads, Exec.ok_bind, if_neg magic, opInit, fills, Exec.ok_bind, table]
    rfl

end SampleFs.Proof.Fuse

import SampleFs.Proof.Fuse.ReadFile

namespace SampleFs.Proof.Fuse
open Lib SampleFs.Fuse

/-- What `first_read` has to do on every image with this superblock: nothing at a block boundary, and
otherwise one read up to the end of the block or of the request. -/
structure ReadsHead (super : Super) (size offset : Nat) : Prop where
  aligned : offset % super.blockSize = 0 → ∀ (fs : Fs) inode fuel, fs.super = super →
    firstRead fs inode size offset fuel = .ok []
  unaligned : offset % super.blockSize ≠ 0 → ∀ (fs : Fs) inode fuel p len, fs.super = super →
    inodeGetDataPblock fs inode (offset / super.blockSize % 2 ^ 32) fuel = .ok (p, len) →
      firstRead fs inode size offset fuel = diskRead fs.disk (super.blocks2Bytes p + offset % super.blockSize)
        (min size (super.blockSize - offset % super.blockSize))
  after : ∀ (fs : Fs) inode fuel head, fs.super = super → firstRead fs inode size offset fuel = .ok head →
    head.length = size ∨ (offset + head.length) % super.blockSize = 0

/-- `ALIGN_TO_BLOCKSIZE` gives the least multiple of the block size that is not below its argument. -/
def Aligns (super : Super) (n : Nat) : Prop :=
  IsLeast {m | super.blockSize ∣ m ∧ n ≤ m} (super.alignToBlockSize n)

section
variable {super : Super} {size offset n : Nat}

theorem length_diskRead {disk : Disk} {start : Nat} {bytes : List UInt8}
    (reads : diskRead disk start size = .ok bytes) : bytes.length = size := by
  obtain ⟨_, _, same⟩ := Exec.bind_eq_ok.mp reads
  cases same
  simp [Disk.bytes]

/-! ## Rounding up -/

/-- Above 4 GiB the upper half of the argument is lost. -/
theorem alignToBlockSize_le (blocks : super.logBlockSize ≤ 6) (unaligned : n % super.blockSize ≠ 0) :
    super.blockSize ∣ super.alignToBlockSize n ∧ super.alignToBlockSize n ≤ 2 ^ 32 := by
  obtain ⟨power, positive, _⟩ := blockSize_pow blocks
  have divides : super.blockSize ∣ 2 ^ 32 := by
    rw [power]
    exact Nat.pow_dvd_pow 2 (by omega)
  obtain ⟨count, whole⟩ := divides
  have less : n % 2 ^ 32 / super.blockSize < count := by
    apply (Nat.div_lt_iff_lt_mul positive).mpr
    rw [Nat.mul_comm, ← whole]
    exact Nat.mod_lt _ (by decide)
  rw [Super.alignToBlockSize, if_pos unaligned, ← Nat.add_one_mul]
  refine ⟨Nat.dvd_mul_left .., ?_⟩
  calc
    (n % 2 ^ 32 / super.blockSize + 1) * super.blockSize ≤ count * super.blockSize := Nat.mul_le_mul_right _ less
    _ = super.blockSize * count := Nat.mul_comm ..
    _ = 2 ^ 32 := whole.symm

theorem aligns_iff (blocks : super.logBlockSize ≤ 6) :
    Aligns super n ↔ n % super.blockSize = 0 ∨ n < 2 ^ 32 := by
  obtain ⟨_, positive, bound⟩ := blockSize_pow blocks
  have division := Nat.div_add_mod' n super.blockSize
  have remainder := Nat.mod_lt n positive
  by_cases aligned : n % super.blockSize = 0
  · refine iff_of_true ⟨?_, ?_⟩ (.inl aligned)
    · rw [Super.alignToBlockSize, if_neg (not_not.mpr aligned)]
      exact ⟨Nat.dvd_of_mod_eq_zero aligned, Nat.le_refl n⟩
    · rintro m ⟨_, above⟩
      rw [Super.alignToBlockSize, if_neg (not_not.mpr aligned)]
      exact above
  · obtain ⟨divides, small⟩ := alignToBlockSize_le blocks aligned
    constructor
    · rintro ⟨⟨_, above⟩, _⟩
      refine .inr (lt_of_le_of_ne (above.trans small) ?_)
      intro same
      refine aligned (Nat.mod_eq_zero_of_dvd ?_)
      rwa [Nat.le_antisymm above (small.trans_eq same.symm)]
    · rintro (other | low)
      · exact absurd other aligned
      · have rounds : super.alignToBlockSize n = (n / super.blockSize + 1) * super.blockSize := by
          rw [Super.alignToBlockSize, if_pos aligned, Nat.mod_eq_of_lt low, Nat.succ_mul]
        refine ⟨⟨divides, ?_⟩, ?_⟩
        · rw [rounds, Nat.succ_mul]
          omega
        · rintro m ⟨⟨count, rfl⟩, above⟩
          rw [rounds, Nat.mul_comm super.blockSize]
          refine Nat.mul_le_mul_right _ (Nat.succ_le_of_lt ((Nat.div_lt_iff_lt_mul positive).mpr ?_))
          rw [Nat.mul_comm] at above
          refine lt_of_le_of_ne above ?_
          intro same
          exact aligned (by rw [same, Nat.mul_mod_left])

/-! ## The head of a read -/

def holeInode : Inode := ⟨0, 0, 0x80000, leafNode []⟩

theorem holeInode_hole (fs : Fs) (lblock : Nat) : inodeGetDataPblock fs holeInode lblock 1 = .ok (0, 1) := rfl

def wideDisk : Disk := ⟨131072, fun _ => 0, by decide⟩

theorem firstRead_beyond {fs : Fs} {inode : Inode} {fuel p len : Nat} (blocks : fs.super.logBlockSize ≤ 6)
    (some : 0 < size) (small : size < 2 ^ 31) (word : offset < 2 ^ 63) (unaligned : offset % fs.super.blockSize ≠ 0)
    (beyond : ¬ offset % fs.super.blockSize + size ≤ fs.super.blockSize) (high : 2 ^ 32 ≤ offset)
    (finds : inodeGetDataPblock fs inode (offset / fs.super.blockSize % 2 ^ 32) fuel = .ok (p, len)) :
    firstRead fs inode size offset fuel = .fail .assertFailed := by
  obtain ⟨_, positive, bound⟩ := blockSize_pow blocks
  obtain ⟨divides, low⟩ := alignToBlockSize_le blocks unaligned
  have last : (offset + (size + (2 ^ 64 - 1))) % 2 ^ 64 = offset + size - 1 := by omega
  simp only [firstRead, last, if_neg (Nat.ne_of_gt some), if_neg unaligned, finds, Exec.ok_bind,
    if_neg (mt (sameBlock_mod positive bound some small).mp beyond)]
  have apart : offset ≠ 2 ^ 32 ∨ fs.super.alignToBlockSize offset ≠ 2 ^ 32 := by
    by_contra both
    rw [not_or, not_not, not_not] at both
    rw [both.2, ← both.1] at divides
    exact unaligned (Nat.mod_eq_zero_of_dvd divides)
  have huge : preadMax < (fs.super.alignToBlockSize offset + (2 ^ 64 - offset)) % 2 ^ 64 := by
    rw [preadMax]
    omega
  generalize (fs.super.alignToBlockSize offset + (2 ^ 64 - offset)) % 2 ^ 64 = request at huge ⊢
  by_cases passes : (offset + request) % 2 ^ 64 % fs.super.blockSize = 0
  · rw [Exec.check_pos _ passes, Exec.ok_bind, diskRead, Exec.check_neg _ (by omega), Exec.fail_bind]
  · rw [Exec.check_neg _ passes, Exec.fail_bind]

def HeadFits (super : Super) (size offset : Nat) : Prop :=
  offset % super.blockSize = 0 ∨ offset % super.blockSize + size ≤ super.blockSize ∨ offset < 2 ^ 32

theorem readsHead_of_fits (blocks : super.logBlockSize ≤ 6) (some : 0 < size) (small : size < 2 ^ 31)
    (word : offset < 2 ^ 63) (fits : HeadFits super size offset) : ReadsHead super size offset := by
  obtain ⟨_, positive, bound⟩ := blockSize_pow blocks
  have remainder := Nat.mod_lt offset positive
  have reads (unaligned : offset % super.blockSize ≠ 0) (fs : Fs) inode fuel p len (same : fs.super = super)
      (finds : inodeGetDataPblock fs inode (offset / super.blockSize % 2 ^ 32) fuel = .ok (p, len)) :
      firstRead fs inode size offset fuel = diskRead fs.disk (super.blocks2Bytes p + offset % super.blockSize)
        (min size (super.blockSize - offset % super.blockSize)) := by
    subst same
    exact firstRead_reads positive bound some small word unaligned (fits.resolve_left unaligned) finds
  refine ⟨?_, reads, ?_⟩
  · intro aligned fs inode fuel same
    subst same
    exact firstRead_aligned aligned fuel
  · intro fs inode fuel head same runs
    by_cases aligned : offset % super.blockSize = 0
    · subst same
      rw [firstRead_aligned aligned] at runs
      cases runs
      exact .inr (by rwa [List.length_nil, Nat.add_zero])
    · cases finds : inodeGetDataPblock fs inode (offset / super.blockSize % 2 ^ 32) fuel with
      | ok found =>
          rw [reads aligned fs inode fuel found.1 found.2 same finds] at runs
          rw [length_diskRead runs]
          by_cases within : offset % super.blockSize + size ≤ super.blockSize
          · exact .inl (Nat.min_eq_left (by omega))
          · have division := Nat.div_add_mod' offset super.blockSize
            have ends : offset + (super.blockSize - offset % super.blockSize) =
                (offset / super.blockSize + 1) * super.blockSize := by
              rw [Nat.succ_mul]
              omega
            rw [Nat.min_eq_right (by omega), ends]
            exact .inr (Nat.mul_mod_left ..)
      | fail fault =>
          subst same
          simp only [firstRead, if_neg (Nat.ne_of_gt some), if_neg aligned, finds, Exec.fail_bind] at runs
          cases runs
      | timeout =>
          subst same
          simp only [firstRead, if_neg (Nat.ne_of_gt some), if_neg aligned, finds, Exec.timeout_bind] at runs
          cases runs

theorem ReadsHead.fits (blocks : super.logBlockSize ≤ 6) (some : 0 < size) (small : size < 2 ^ 31)
    (word : offset < 2 ^ 63) (reads : ReadsHead super size offset) : HeadFits super size offset := by
  obtain ⟨_, positive, bound⟩ := blockSize_pow blocks
  have remainder := Nat.mod_lt offset positive
  by_contra outside
  simp only [HeadFits, not_or] at outside
  obtain ⟨unaligned, beyond, high⟩ := outside
  have finds := holeInode_hole ⟨wideDisk, super, []⟩ (offset / super.blockSize % 2 ^ 32)
  have asked := reads.unaligned unaligned ⟨wideDisk, super, []⟩ holeInode 1 0 1 rfl finds
  have stops : firstRead ⟨wideDisk, super, []⟩ holeInode size offset 1 = .fail .assertFailed :=
    firstRead_beyond blocks some small word unaligned beyond (Nat.not_lt.mp high) finds
  have room : wideDisk.size = 131072 := rfl
  have short : min size (super.blockSize - offset % super.blockSize) ≤ 65536 := by omega
  rw [stops, diskRead_ok (short.trans (by decide)) (by simp only [Super.blocks2Bytes, Nat.zero_mul, room]; omega)] at asked
  cases asked

theorem first_read_head (blocks : super.logBlockSize ≤ 6) (some : 0 < size) (small : size < 2 ^ 31)
    (word : offset < 2 ^ 63 - 2 ^ 31) : (ReadsHead super size offset ↔ HeadFits super size offset) ∧
      ∀ n < 2 ^ 63, Aligns super n ↔ n % super.blockSize = 0 ∨ n < 2 ^ 32 := by
  refine ⟨⟨?_, ?_⟩, ?_⟩
  · intro reads
    exact reads.fits blocks some small (by omega)
  · intro fits
    exact readsHead_of_fits blocks some small (by omega) fits
  · intro n _
    exact aligns_iff blocks

end

theorem first_read_head_small : ReadsHead smallSuper 3000 1500 ∧ Aligns smallSuper 1500 := by
  obtain ⟨head, aligns⟩ := @first_read_head smallSuper 3000 1500 (by decide) (by decide) (by decide) (by decide)
  exact ⟨head.mpr (.inr (.inr (by decide))), (aligns 1500 (by decide)).mpr (.inr (by decide))⟩

theorem first_read_four_gib : smallSuper.alignToBlockSize (2 ^ 32 + 1) = 1024 ∧ ¬ Aligns smallSuper (2 ^ 32 + 1) ∧
    firstRead ⟨wideDisk, smallSuper, []⟩ holeInode 2000 (2 ^ 32 + 1) 1 = .fail .assertFailed ∧
    ¬ ReadsHead smallSuper 2000 (2 ^ 32 + 1) := by
  refine ⟨by decide, ?_, by decide +kernel, ?_⟩
  · intro aligns
    rcases (aligns_iff (by decide)).mp aligns with aligned | low
    · exact absurd aligned (by decide)
    · exact absurd low (by decide)
  · intro reads
    rcases reads.fits (by decide) (by decide) (by decide) (by decide) with aligned | within | low
    · exact absurd aligned (by decide)
    · exact absurd within (by decide)
    · exact absurd low (by decide)

end SampleFs.Proof.Fuse

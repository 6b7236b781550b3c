import SampleFs.Fuse.OpRead
import SampleFs.Proof.Fuse.Layout

namespace SampleFs.Proof.Fuse
open Lib SampleFs.Fuse

section
variable (fs : Fs) (inode : Inode) (layout : Layout)

def fileByte (i : Nat) : UInt8 :=
  match layout.pblock fs inode (i / fs.super.blockSize) with
  | some p => fs.disk.byte (fs.super.blocks2Bytes p + i % fs.super.blockSize)
  | none => 0

def fileBytes (start n : Nat) : List UInt8 :=
  (List.range n).map fun i => fileByte fs inode layout (start + i)

structure Readable : Prop where
  blockSize : fs.super.logBlockSize ≤ 6
  valid : layout.Valid fs inode
  blocks : fs.super.bytes2Blocks inode.size ≤ 2 ^ 32
  onDevice : ∀ lblock p, lblock < fs.super.bytes2Blocks inode.size →
    layout.pblock fs inode lblock = some p → p ≠ 0 ∧ fs.super.blocks2Bytes (p + 1) ≤ fs.disk.size

def readLength (size offset : Nat) : Nat := min size (inode.size - offset)

/-- An unaligned head lies in a mapped block and, if it runs over the end of that block, starts
below 4 GiB; every hole among the whole blocks is seen as one; and what is read at once of an extent is
not more than one `pread` moves. -/
structure ReadCondition (size offset : Nat) : Prop where
  head : offset % fs.super.blockSize ≠ 0 → 0 < readLength inode size offset →
    (layout.pblock fs inode (offset / fs.super.blockSize)).isSome ∧
      (offset % fs.super.blockSize + readLength inode size offset ≤ fs.super.blockSize ∨ offset < 2 ^ 32)
  rest : ∀ lblock, offset ≤ lblock * fs.super.blockSize →
    lblock * fs.super.blockSize < offset + readLength inode size offset →
      layout.pblock fs inode lblock = none → layout.Visible fs inode lblock
  runs : ∀ lblock, offset ≤ lblock * fs.super.blockSize →
    lblock * fs.super.blockSize < offset + readLength inode size offset →
      min (offset + readLength inode size offset - lblock * fs.super.blockSize)
        (layout.run lblock * fs.super.blockSize) ≤ preadMax

def ReadsFile (fh size : Nat) (offset : Int) : Prop :=
  Exec.Returns (opRead fs fh size offset) ((readLength inode size offset.toNat : Nat),
    fileBytes fs inode layout offset.toNat (readLength inode size offset.toNat))

end

variable {fs : Fs} {inode : Inode} {layout : Layout}

theorem short_runs {size offset lblock : Nat} (short : size ≤ preadMax)
    (reached : offset ≤ lblock * fs.super.blockSize) :
    min (offset + readLength inode size offset - lblock * fs.super.blockSize)
      (layout.run lblock * fs.super.blockSize) ≤ preadMax := by
  have least : readLength inode size offset ≤ size := Nat.min_le_left ..
  omega

@[simp] theorem length_fileBytes (start n : Nat) : (fileBytes fs inode layout start n).length = n := by
  simp [fileBytes]

theorem fileBytes_append (start m n : Nat) : fileBytes fs inode layout start (m + n) =
    fileBytes fs inode layout start m ++ fileBytes fs inode layout (start + m) n := by
  simp [fileBytes, List.range_add, Nat.add_assoc]

theorem blockSize_pow {super : Super} (small : super.logBlockSize ≤ 6) :
    super.blockSize = 2 ^ (super.logBlockSize + 10) ∧ 0 < super.blockSize ∧ super.blockSize ≤ 65536 := by
  have bound : 2 ^ (super.logBlockSize + 10) ≤ 2 ^ 16 := Nat.pow_le_pow_right (by decide) (by omega)
  have shift : super.blockShift = super.logBlockSize + 10 := Nat.mod_eq_of_lt (by omega)
  have exact_ : super.blockSize = 2 ^ (super.logBlockSize + 10) := by
    rw [Super.blockSize, shift]
    exact Nat.mod_eq_of_lt (bound.trans_lt (by decide))
  exact ⟨exact_, by rw [exact_]; exact Nat.two_pow_pos _, by rw [exact_]; exact bound⟩

theorem blockSize_eq (readable : Readable fs inode layout) :
    fs.super.blockSize = 2 ^ (fs.super.logBlockSize + 10) ∧ 0 < fs.super.blockSize ∧ fs.super.blockSize ≤ 65536 :=
  blockSize_pow readable.blockSize

theorem lt_bytes2Blocks {super : Super} (positive : 0 < super.blockSize) {lblock bytes : Nat} :
    lblock < super.bytes2Blocks bytes ↔ lblock * super.blockSize < bytes := by
  unfold Super.bytes2Blocks
  by_cases whole : bytes % super.blockSize = 0
  · have product : bytes / super.blockSize * super.blockSize = bytes := Nat.div_mul_cancel (Nat.dvd_of_mod_eq_zero whole)
    rw [if_neg (by simpa using whole), Nat.add_zero, ← Nat.mul_lt_mul_right positive, product]
  · rw [if_pos whole, Nat.lt_succ_iff, Nat.le_div_iff_mul_le positive, le_iff_lt_or_eq]
    constructor
    · intro reached
      exact reached.resolve_right fun same => whole (by rw [← same, Nat.mul_mod_left])
    · exact Or.inl

theorem bytes_run {lblock p len start n : Nat} (positive : 0 < fs.super.blockSize)
    (run : ∀ d, d < len → layout.pblock fs inode (lblock + d) = some (p + d))
    (within : start + n ≤ len * fs.super.blockSize) :
    fs.disk.bytes (fs.super.blocks2Bytes p + start) n =
      fileBytes fs inode layout (lblock * fs.super.blockSize + start) n := by
  apply List.map_congr_left
  intro i member
  have less : i < n := List.mem_range.mp member
  have inside : (start + i) / fs.super.blockSize < len := (Nat.div_lt_iff_lt_mul positive).mpr (by omega)
  have block : (lblock * fs.super.blockSize + start + i) / fs.super.blockSize = lblock + (start + i) / fs.super.blockSize := by
    rw [Nat.add_assoc, Nat.add_comm, Nat.add_mul_div_right _ _ positive, Nat.add_comm]
  have offset : (lblock * fs.super.blockSize + start + i) % fs.super.blockSize = (start + i) % fs.super.blockSize := by
    rw [Nat.add_assoc, Nat.mul_add_mod']
  rw [fileByte, block, offset, run _ inside]
  have position : fs.super.blocks2Bytes p + start + i =
      fs.super.blocks2Bytes (p + (start + i) / fs.super.blockSize) + (start + i) % fs.super.blockSize := by
    simp only [Super.blocks2Bytes, Nat.add_mul]
    have := Nat.div_add_mod' (start + i) fs.super.blockSize
    omega
  rw [position]

theorem zeros_run {lblock n : Nat} (positive : 0 < fs.super.blockSize)
    (hole : layout.pblock fs inode lblock = none) (within : n ≤ fs.super.blockSize) :
    List.replicate n 0 = fileBytes fs inode layout (lblock * fs.super.blockSize) n := by
  apply List.ext_getElem
  · simp
  · intro i less _
    have small : i < fs.super.blockSize := by
      rw [List.length_replicate] at less
      omega
    have block : (lblock * fs.super.blockSize + i) / fs.super.blockSize = lblock := by
      rw [Nat.add_comm, Nat.add_mul_div_right _ _ positive, Nat.div_eq_of_lt small, Nat.zero_add]
    simp [fileBytes, fileByte, block, hole]

theorem diskRead_ok {disk : Disk} {start size : Nat} (small : size ≤ preadMax)
    (inside : start + size ≤ disk.size) : diskRead disk start size = .ok (disk.bytes start size) := by
  have fits := disk.fits
  have passes : size ≤ preadMax ∧ start < 2 ^ 63 ∧ (size = 0 ∨ start + size ≤ disk.size) :=
    ⟨small, by omega, .inr inside⟩
  rw [diskRead, Exec.check_pos _ passes]
  rfl

theorem truncateSize_eq {size offset : Nat} (small : size < 2 ^ 31) (word : offset < 2 ^ 63) :
    truncateSize inode size offset = readLength inode size offset := by
  have wraps : (offset + size) % 2 ^ 64 = offset + size := Nat.mod_eq_of_lt (by omega)
  rw [truncateSize, wraps, readLength]
  split
  next past => rw [Nat.sub_eq_zero_of_le past, Nat.min_zero]
  next =>
    split
    next reaches => rw [Nat.min_eq_right (by omega)]
    next => rw [Nat.min_eq_left (by omega)]

theorem mapped_read (readable : Readable fs inode layout) {lblock p len : Nat} (start n : Nat)
    (run : ∀ d, d < len → layout.pblock fs inode (lblock + d) = some (p + d))
    (within : start + n ≤ len * fs.super.blockSize) (some : 0 < n) (small : n ≤ preadMax)
    (inFile : lblock * fs.super.blockSize + start + n ≤ inode.size) :
    diskRead fs.disk (fs.super.blocks2Bytes p + start) n =
      .ok (fileBytes fs inode layout (lblock * fs.super.blockSize + start) n) := by
  obtain ⟨_, positive, _⟩ := blockSize_eq readable
  have last : (start + n - 1) / fs.super.blockSize < len := (Nat.div_lt_iff_lt_mul positive).mpr (by omega)
  have division := Nat.div_add_mod' (start + n - 1) fs.super.blockSize
  have remainder := Nat.mod_lt (start + n - 1) positive
  have listed : lblock + (start + n - 1) / fs.super.blockSize < fs.super.bytes2Blocks inode.size := by
    apply (lt_bytes2Blocks positive).mpr
    rw [Nat.add_mul]
    omega
  obtain ⟨_, room⟩ := readable.onDevice _ _ listed (run _ last)
  have inside : fs.super.blocks2Bytes p + start + n ≤ fs.disk.size := by
    simp only [Super.blocks2Bytes, Nat.add_mul, Nat.one_mul] at room ⊢
    omega
  rw [diskRead_ok small inside, bytes_run positive run within]

def headLength (super : Super) (size offset : Nat) : Nat :=
  if offset % super.blockSize = 0 then 0 else min size (super.blockSize - offset % super.blockSize)

theorem lastBlock_eq {bs offset size : Nat} (positive : 0 < bs) (some : 0 < size) :
    (offset + size - 1) / bs = offset / bs + (offset % bs + size - 1) / bs := by
  have division := Nat.div_add_mod' offset bs
  rw [Nat.add_comm (offset / bs), ← Nat.add_mul_div_right _ _ positive]
  congr 1
  omega

theorem sameBlock_iff {bs offset size : Nat} (positive : 0 < bs) (some : 0 < size) :
    offset / bs = (offset + size - 1) / bs ↔ offset % bs + size ≤ bs := by
  have step := @lastBlock_eq bs offset size positive some
  have small : (offset % bs + size - 1) / bs = 0 ↔ offset % bs + size - 1 < bs := by
    rw [Nat.div_eq_zero_iff]
    omega
  omega

/-- The block numbers are compared in 32 bits, and a read of less than 2 GiB does not come round to its first block. -/
theorem sameBlock_mod {bs offset size : Nat} (positive : 0 < bs) (bound : bs ≤ 65536) (some : 0 < size)
    (small : size < 2 ^ 31) :
    offset / bs % 2 ^ 32 = (offset + size - 1) / bs % 2 ^ 32 ↔ offset % bs + size ≤ bs := by
  have step := @lastBlock_eq bs offset size positive some
  have remainder := Nat.mod_lt offset positive
  have near : (offset % bs + size - 1) / bs ≤ offset % bs + size - 1 := Nat.div_le_self ..
  rw [← sameBlock_iff positive some, step]
  generalize (offset % bs + size - 1) / bs = further at near ⊢
  omega

theorem blockNumber_eq (readable : Readable fs inode layout) {i : Nat} (less : i < inode.size) :
    i / fs.super.blockSize % 2 ^ 32 = i / fs.super.blockSize := by
  obtain ⟨_, positive, _⟩ := blockSize_eq readable
  apply Nat.mod_eq_of_lt
  apply Nat.lt_of_lt_of_le _ readable.blocks
  apply (lt_bytes2Blocks positive).mpr
  have := Nat.div_add_mod' i fs.super.blockSize
  omega

theorem alignToBlockSize_rest {super : Super} {offset : Nat} (positive : 0 < super.blockSize)
    (bound : super.blockSize ≤ 65536) (unaligned : offset % super.blockSize ≠ 0) (low : offset < 2 ^ 32) :
    (super.alignToBlockSize offset + (2 ^ 64 - offset)) % 2 ^ 64 =
      super.blockSize - offset % super.blockSize := by
  have division := Nat.div_add_mod' offset super.blockSize
  have remainder := Nat.mod_lt offset positive
  rw [Super.alignToBlockSize, if_pos unaligned, Nat.mod_eq_of_lt low]
  omega

theorem firstRead_reads {size offset fuel p len : Nat} (positive : 0 < fs.super.blockSize)
    (bound : fs.super.blockSize ≤ 65536) (some : 0 < size) (small : size < 2 ^ 31) (word : offset < 2 ^ 63)
    (unaligned : offset % fs.super.blockSize ≠ 0)
    (fits : offset % fs.super.blockSize + size ≤ fs.super.blockSize ∨ offset < 2 ^ 32)
    (finds : inodeGetDataPblock fs inode (offset / fs.super.blockSize % 2 ^ 32) fuel = .ok (p, len)) :
    firstRead fs inode size offset fuel =
      diskRead fs.disk (fs.super.blocks2Bytes p + offset % fs.super.blockSize)
        (min size (fs.super.blockSize - offset % fs.super.blockSize)) := by
  have division := Nat.div_add_mod' offset fs.super.blockSize
  have remainder := Nat.mod_lt offset positive
  have last : (offset + (size + (2 ^ 64 - 1))) % 2 ^ 64 = offset + size - 1 := by omega
  simp only [firstRead, last, if_neg (Nat.ne_of_gt some), if_neg unaligned, finds, Exec.ok_bind]
  by_cases within : offset % fs.super.blockSize + size ≤ fs.super.blockSize
  · rw [if_pos ((sameBlock_mod positive bound some small).mpr within), Nat.min_eq_left (by omega)]
  · have toEnd := alignToBlockSize_rest positive bound unaligned (fits.resolve_left within)
    have wraps : (offset + (fs.super.blockSize - offset % fs.super.blockSize)) % 2 ^ 64 =
        (offset / fs.super.blockSize + 1) * fs.super.blockSize := by
      rw [Nat.mod_eq_of_lt (by omega), Nat.add_mul]
      omega
    have passes : (offset + (fs.super.blockSize - offset % fs.super.blockSize)) % 2 ^ 64 %
        fs.super.blockSize = 0 := by
      rw [wraps, Nat.mul_mod_left]
    rw [if_neg (mt (sameBlock_mod positive bound some small).mp within), toEnd, Exec.check_pos _ passes, Exec.ok_bind,
      Nat.min_eq_right (by omega)]

theorem firstRead_aligned {size offset : Nat} (aligned : offset % fs.super.blockSize = 0) (fuel : Nat) :
    firstRead fs inode size offset fuel = .ok [] := by
  by_cases empty : size = 0
  · simp only [firstRead, if_pos empty]
    rfl
  · simp only [firstRead, if_neg empty, if_pos aligned]
    rfl

theorem firstRead_eq (readable : Readable fs inode layout) {size offset fuel : Nat} (some : 0 < size)
    (inFile : offset + size ≤ inode.size) (small : size < 2 ^ 31) (word : offset < 2 ^ 63)
    (enough : layout.depth < fuel)
    (head : offset % fs.super.blockSize ≠ 0 →
      (layout.pblock fs inode (offset / fs.super.blockSize)).isSome ∧
        (offset % fs.super.blockSize + size ≤ fs.super.blockSize ∨ offset < 2 ^ 32)) :
    firstRead fs inode size offset fuel =
      .ok (fileBytes fs inode layout offset (headLength fs.super size offset)) := by
  obtain ⟨power, positive, bound⟩ := blockSize_eq readable
  have division := Nat.div_add_mod' offset fs.super.blockSize
  have remainder := Nat.mod_lt offset positive
  by_cases aligned : offset % fs.super.blockSize = 0
  · rw [firstRead_aligned aligned, headLength, if_pos aligned]
    rfl
  · obtain ⟨present, fits⟩ := head aligned
    obtain ⟨p, mapped⟩ := Option.isSome_iff_exists.mp present
    have listed : offset / fs.super.blockSize < fs.super.bytes2Blocks inode.size :=
      (lt_bytes2Blocks positive).mpr (by omega)
    obtain ⟨len, more, finds, run⟩ := inodeGetDataPblock_mapped readable.valid listed mapped
    have alone : ∀ d, d < 1 → layout.pblock fs inode (offset / fs.super.blockSize + d) = Option.some (p + d) :=
      fun d less => run d (by omega)
    have found := finds fuel enough
    rw [← blockNumber_eq readable (show offset < inode.size by omega)] at found
    rw [firstRead_reads positive bound some small word aligned fits found, headLength, if_neg aligned]
    have short : min size (fs.super.blockSize - offset % fs.super.blockSize) ≤ 65536 := by omega
    have reads := mapped_read readable (offset % fs.super.blockSize)
      (min size (fs.super.blockSize - offset % fs.super.blockSize)) alone (by omega) (by omega)
      (short.trans (by decide)) (by omega)
    rwa [division] at reads

/-! ## The main loop -/

structure ReadInvariant (fs : Fs) (inode : Inode) (layout : Layout) (size offset : Nat) (s : ReadLoop) :
    Prop where
  bytes : s.buf = fileBytes fs inode layout offset s.buf.length
  most : s.buf.length ≤ size
  position : s.buf.length < size → s.lblock * fs.super.blockSize = offset + s.buf.length

theorem ReadInvariant.next {size offset lblock len n : Nat} {buf : List UInt8}
    (readable : Readable fs inode layout) (inFile : offset + size ≤ inode.size)
    (inv : ReadInvariant fs inode layout size offset ⟨lblock, buf⟩) (more : buf.length < size)
    (count : n = min (size - buf.length) (len * fs.super.blockSize)) :
    ReadInvariant fs inode layout size offset
      ⟨(lblock + len) % 2 ^ 32, buf ++ fileBytes fs inode layout (lblock * fs.super.blockSize) n⟩ := by
  obtain ⟨_, positive, _⟩ := blockSize_eq readable
  have position : lblock * fs.super.blockSize = offset + buf.length := inv.position more
  refine ⟨?_, ?_, ?_⟩
  · rw [List.length_append, length_fileBytes, fileBytes_append, ← inv.bytes, position]
  · rw [List.length_append, length_fileBytes]
    have := inv.most
    simp only at this
    omega
  · simp only [List.length_append, length_fileBytes]
    intro further
    have whole : n = len * fs.super.blockSize := by omega
    have reached : (lblock + len) * fs.super.blockSize = offset + (buf.length + n) := by
      rw [Nat.add_mul]
      omega
    have listed : lblock + len < fs.super.bytes2Blocks inode.size :=
      (lt_bytes2Blocks positive).mpr (by omega)
    rw [Nat.mod_eq_of_lt (listed.trans_le readable.blocks)]
    exact reached

theorem readRun_reads {p len : Nat} (positive : 0 < fs.super.blockSize) (nonzero : p ≠ 0) (some : 0 < len) (want : Nat) :
    readRun fs p len want = diskRead fs.disk (fs.super.blocks2Bytes p) (min want (len * fs.super.blockSize)) := by
  have room : fs.super.blockSize * len ≠ 0 := Nat.ne_of_gt (Nat.mul_pos positive some)
  have cut : (if want > fs.super.blockSize * len then fs.super.blockSize * len else want) =
      min want (len * fs.super.blockSize) := by
    rw [Nat.mul_comm fs.super.blockSize len]
    split <;> omega
  rw [readRun, if_pos nonzero, diskCtxCreate, Exec.check_pos _ (Nat.ne_of_gt positive)]
  simp only [Exec.ok_bind, Exec.pure_eq, diskCtxRead]
  rw [Exec.check_pos _ room, Exec.ok_bind, cut]
  cases diskRead fs.disk (fs.super.blocks2Bytes p) (min want (len * fs.super.blockSize)) <;> rfl

theorem readPass_spec (readable : Readable fs inode layout) {size offset fuel : Nat}
    (inFile : offset + size ≤ inode.size) (enough : layout.depth < fuel)
    (holes : ∀ lblock, offset ≤ lblock * fs.super.blockSize →
      lblock * fs.super.blockSize < offset + size →
        layout.pblock fs inode lblock = none → layout.Visible fs inode lblock)
    (runs : ∀ lblock, offset ≤ lblock * fs.super.blockSize → lblock * fs.super.blockSize < offset + size →
      min (offset + size - lblock * fs.super.blockSize) (layout.run lblock * fs.super.blockSize) ≤ preadMax)
    (s : ReadLoop) (inv : ReadInvariant fs inode layout size offset s) :
    ∃ pass, readPass fs inode size fuel s = .ok pass ∧ match pass with
      | .again next => ReadInvariant fs inode layout size offset next ∧
          size - next.buf.length < size - s.buf.length
      | .done buf => buf = fileBytes fs inode layout offset size := by
  obtain ⟨lblock, buf⟩ := s
  obtain ⟨_, positive, bound⟩ := blockSize_eq readable
  by_cases more : size > buf.length
  · have position : lblock * fs.super.blockSize = offset + buf.length := inv.position more
    have listed : lblock < fs.super.bytes2Blocks inode.size := (lt_bytes2Blocks positive).mpr (by omega)
    simp only [readPass, if_pos more]
    cases mapped : layout.pblock fs inode lblock with
    | some p =>
        obtain ⟨some, finds, run⟩ := inodeGetDataPblock_run readable.valid listed mapped
        have short := runs lblock (by omega) (by omega)
        generalize layout.run lblock = len at some finds run short
        obtain ⟨nonzero, _⟩ := readable.onDevice lblock p listed mapped
        have room : 0 < len * fs.super.blockSize := Nat.mul_pos some positive
        obtain ⟨n, count⟩ : ∃ n, n = min (size - buf.length) (len * fs.super.blockSize) := ⟨_, rfl⟩
        have reads := mapped_read readable 0 n run (by omega) (by omega) (by omega) (by omega)
        rw [Nat.add_zero, Nat.add_zero] at reads
        refine ⟨.again _, ?_, inv.next readable inFile more count, ?_⟩
        · rw [finds fuel enough, Exec.ok_bind]
          simp only
          rw [readRun_reads positive nonzero some, ← count, reads]
          rfl
        · simp only [List.length_append, length_fileBytes]
          omega
    | none =>
        have sees := (inodeGetDataPblock_visible readable.valid listed mapped enough).mpr
          (holes lblock (by omega) (by omega) mapped)
        obtain ⟨n, count⟩ : ∃ n, n = min (size - buf.length) fs.super.blockSize := ⟨_, rfl⟩
        have one : n = min (size - buf.length) (1 * fs.super.blockSize) := by omega
        refine ⟨.again _, ?_, inv.next readable inFile more one, ?_⟩
        · rw [sees, Exec.ok_bind, ← zeros_run positive mapped (by omega), count]
          rfl
        · simp only [List.length_append, length_fileBytes]
          omega
  · refine ⟨.done buf, ?_, ?_⟩
    · simp only [readPass, if_neg more]
      rfl
    · have full : buf.length = size := Nat.le_antisymm inv.most (Nat.not_lt.mp more)
      have bytes := inv.bytes
      simp only [full] at bytes
      exact bytes

theorem readLoop_returns (readable : Readable fs inode layout) {size offset fuel : Nat}
    (inFile : offset + size ≤ inode.size) (small : size < 2 ^ 31) (word : offset < 2 ^ 63)
    (enough : layout.depth + size < fuel) (some : 0 < size)
    (holes : ∀ lblock, offset ≤ lblock * fs.super.blockSize →
      lblock * fs.super.blockSize < offset + size →
        layout.pblock fs inode lblock = none → layout.Visible fs inode lblock)
    (runs : ∀ lblock, offset ≤ lblock * fs.super.blockSize → lblock * fs.super.blockSize < offset + size →
      min (offset + size - lblock * fs.super.blockSize) (layout.run lblock * fs.super.blockSize) ≤ preadMax) :
    Exec.loop (readPass fs inode size fuel) fuel
        { lblock := (offset + headLength fs.super size offset) % 2 ^ 64 / fs.super.blockSize % 2 ^ 32
          buf := fileBytes fs inode layout offset (headLength fs.super size offset) } =
      .ok (fileBytes fs inode layout offset size) := by
  obtain ⟨_, positive, _⟩ := blockSize_eq readable
  have division := Nat.div_add_mod' offset fs.super.blockSize
  have remainder := Nat.mod_lt offset positive
  have most : headLength fs.super size offset ≤ size := by
    rw [headLength]
    split <;> omega
  have start : ReadInvariant fs inode layout size offset
      { lblock := (offset + headLength fs.super size offset) % 2 ^ 64 / fs.super.blockSize % 2 ^ 32
        buf := fileBytes fs inode layout offset (headLength fs.super size offset) } := by
    refine ⟨by rw [length_fileBytes], by rw [length_fileBytes]; exact most, ?_⟩
    simp only [length_fileBytes]
    intro more
    obtain ⟨lblock, whole⟩ : ∃ lblock, offset + headLength fs.super size offset = lblock * fs.super.blockSize := by
      rw [headLength] at more ⊢
      split at more
      next aligned => exact ⟨offset / fs.super.blockSize, by rw [if_pos aligned]; omega⟩
      next aligned =>
        refine ⟨offset / fs.super.blockSize + 1, ?_⟩
        rw [if_neg aligned, Nat.add_mul]
        omega
    have listed : lblock < fs.super.bytes2Blocks inode.size := (lt_bytes2Blocks positive).mpr (by omega)
    rw [Nat.mod_eq_of_lt (by omega : offset + headLength fs.super size offset < 2 ^ 64), whole,
      Nat.mul_div_cancel _ positive, Nat.mod_eq_of_lt (listed.trans_le readable.blocks)]
  have deep : layout.depth < fuel := by omega
  obtain ⟨buf, loops, same⟩ := Exec.loop_returns (readPass fs inode size fuel)
    (ReadInvariant fs inode layout size offset) (fun s => size - s.buf.length)
    (fun buf => buf = fileBytes fs inode layout offset size) (fun s inv => by
      obtain ⟨pass, runs, kept⟩ := readPass_spec readable inFile deep holes runs s inv
      refine ⟨pass, runs, ?_⟩
      cases pass with
      | again next => exact kept
      | done buf => exact kept) fuel _ start (by rw [length_fileBytes]; omega)
  rw [loops, same]

theorem file_read (readable : Readable fs inode layout) {fh size : Nat} {offset : Int}
    (found : inodeGetByNumber fs fh = .ok (some inode)) (nonneg : 0 ≤ offset) (word : offset < 2 ^ 63)
    (small : size < 2 ^ 31) (condition : ReadCondition fs inode layout size offset.toNat) :
    ReadsFile fs inode layout fh size offset := by
  obtain ⟨start, rfl⟩ := Int.eq_ofNat_of_zero_le nonneg
  have below : start < 2 ^ 63 := by omega
  have shorter : readLength inode size start ≤ size := Nat.min_le_left _ _
  refine ⟨layout.depth + readLength inode size start + 1, ?_⟩
  simp only [opRead, Int.toNat_natCast]
  rw [Exec.check_pos _ nonneg, Exec.ok_bind, found, Exec.ok_bind]
  simp only [truncateSize_eq small below]
  by_cases empty : readLength inode size start = 0
  · have nothing : firstRead fs inode 0 start (layout.depth + 0 + 1) = .ok [] := rfl
    rw [empty, nothing]
    rfl
  · have some : 0 < readLength inode size start := Nat.pos_of_ne_zero empty
    have inFile : start + readLength inode size start ≤ inode.size := by
      simp only [readLength] at some ⊢
      omega
    rw [firstRead_eq readable some inFile (by omega) below (by omega) (fun unaligned => condition.head unaligned some),
      Exec.ok_bind, length_fileBytes, readLoop_returns readable inFile (by omega) below (by omega) some condition.rest
        condition.runs, Exec.ok_bind, length_fileBytes, Exec.check_pos _ rfl]
    rfl

theorem firstRead_growing (fs : Fs) (inode : Inode) (size offset : Nat) :
    Exec.Growing (firstRead fs inode size offset) := by
  unfold firstRead
  refine .ite (.const _) (.ite (.const _) ?_)
  apply Exec.Growing.bind (inodeGetDataPblock_growing fs inode _)
  intro found
  exact .const _

theorem readPass_growing (fs : Fs) (inode : Inode) (size : Nat) (s : ReadLoop) :
    Exec.Growing fun fuel => readPass fs inode size fuel s := by
  unfold readPass
  refine .ite ?_ (.const _)
  apply Exec.Growing.bind (inodeGetDataPblock_growing fs inode _)
  intro found
  exact .const _

theorem opRead_growing (fs : Fs) (fh size : Nat) (offset : Int) :
    Exec.Growing (opRead fs fh size offset) := by
  unfold opRead
  refine .bind (.const _) fun _ => .bind (.const _) fun found => ?_
  cases found with
  | none => exact .const _
  | some inode =>
      refine .bind (firstRead_growing fs inode _ _) fun head => .bind (.loop ?_ _) fun buf => .const _
      exact readPass_growing fs inode _

/-! ## An image with a sparse file -/

theorem smallDisk_fits : 65536 < 2 ^ 63 := by decide

def smallDisk (pieces : List (Nat × List UInt8)) : Disk where
  size := 65536
  byte := imageByte ([(1028, leBytes 4 64), (1048, leBytes 4 0), (1056, leBytes 4 8192), (1064, leBytes 4 16),
    (1080, leBytes 2 0xef53), (1112, leBytes 2 128), (2056, leBytes 4 5)] ++ pieces)
  fits := smallDisk_fits

theorem opInit_small {disk : Disk} (super : superFill disk = .ok smallSuper)
    (groups : superGroupFill disk smallSuper = .ok [5]) : opInit disk = .ok ⟨disk, smallSuper, [5]⟩ := by
  rw [opInit, super, Exec.ok_bind, groups]
  rfl

def inodeRecord (inode : Inode) : List UInt8 :=
  leBytes 2 inode.mode ++ leBytes 2 0 ++ leBytes 4 inode.size ++ List.replicate 24 0 ++ leBytes 4 inode.flags ++
    leBytes 4 0 ++ inode.block ++ List.replicate 28 0

def inodeAt (number : Nat) (inode : Inode) : Nat × List UInt8 :=
  (5120 + (number - 1) * 128, inodeRecord inode)

def leafInode (size : Nat) (leaf : List Extent) : Inode :=
  ⟨0x81a4, size, 0x80000, leafNode leaf ++ List.replicate (48 - 12 * leaf.length) 0⟩

def headInode : Inode := leafInode 3000 [⟨0, 1, 0, 20⟩]
def sparseInode : Inode := leafInode 1024 []

/-- A boot sector that starts with a jump, a file of one block and two holes, and a file of one hole. -/
def sparseDisk : Disk := smallDisk [(0, [0xeb, 0x58, 0x90]), inodeAt 12 headInode, inodeAt 13 sparseInode]

def sparseFs : Fs := ⟨sparseDisk, smallSuper, [5]⟩

theorem sparseFs_mounted : opInit sparseDisk = .ok sparseFs := opInit_small (by decide +kernel) (by decide +kernel)

theorem file_read_head : ReadsFile sparseFs headInode (.extents 0 [⟨0, 1, 0, 20⟩]) 12 2000 1000 := by
  have readable : Readable sparseFs headInode (.extents 0 [⟨0, 1, 0, 20⟩]) := by
    refine ⟨by decide, singleExtent_valid (by decide) (by decide +kernel) (by decide +kernel)
      ⟨rfl, by decide, by decide, by decide, by decide⟩, by decide, ?_⟩
    intro lblock p _ mapped
    obtain ⟨e, stops, rfl⟩ := Option.map_eq_some_iff.mp mapped
    obtain ⟨e', member, ⟨starts, less⟩, _⟩ := mapsTo_of_find stops
    obtain rfl : e = ⟨0, 1, 0, 20⟩ := List.mem_singleton.mp (List.mem_of_find?_eq_some stops)
    obtain rfl : e' = ⟨0, 1, 0, 20⟩ := List.mem_singleton.mp member
    obtain rfl : lblock = 0 := Nat.lt_one_iff.mp less
    decide
  have holes : ∀ lblock, 1000 ≤ lblock * 1024 → RangeTree.Trails extentRanges lblock 0 [⟨0, 1, 0, 20⟩] := by
    intro lblock reached
    show 1 ≤ lblock
    omega
  refine file_read readable (by decide +kernel) (by decide) (by decide) (by decide) ⟨?_, ?_, ?_⟩
  · intro _ _
    exact ⟨by decide, .inr (by decide)⟩
  · intro lblock reached _ _
    exact holes lblock reached
  · intro lblock reached _
    exact short_runs (by decide) reached

theorem file_read_boot : opInit sparseDisk = .ok sparseFs ∧
    Readable sparseFs sparseInode (.extents 0 []) ∧
    inodeGetByNumber sparseFs 13 = .ok (some sparseInode) ∧
    ¬ ReadsFile sparseFs sparseInode (.extents 0 []) 13 1 1 := by
  refine ⟨sparseFs_mounted, ?_, by decide +kernel, ?_⟩
  · refine ⟨by decide, leafLayout_valid (by decide) (by decide +kernel) rfl (.nil (by decide)) (by simp), by decide, ?_⟩
    intro lblock p _ mapped
    cases mapped
  · intro reads
    have runs : opRead sparseFs 13 1 1 2 = .ok (1, [0x58]) := by decide +kernel
    have same := Exec.Returns.unique (opRead_growing sparseFs 13 1 1) ⟨2, runs⟩ reads
    exact absurd same (by decide)

end SampleFs.Proof.Fuse

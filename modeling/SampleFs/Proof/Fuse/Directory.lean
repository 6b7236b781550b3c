import SampleFs.Proof.Fuse.CacheTransparent

namespace SampleFs.Proof.Fuse
open Lib SampleFs.Fuse

structure Dirent where
  inode : Nat
  recLen : Nat
  name : List UInt8
deriving DecidableEq, Repr

def Dirent.Live (e : Dirent) : Prop := e.inode ≠ 0

instance (e : Dirent) : Decidable e.Live := inferInstanceAs (Decidable (_ ≠ _))

def liveNames (entries : List Dirent) : List (List UInt8) :=
  (entries.filter fun e => e.Live).map Dirent.name

section
variable (fs : Fs) (inode : Inode) (layout : Layout)

def dirBlock (lblock : Nat) : List UInt8 :=
  fileBytes fs inode layout (lblock * fs.super.blockSize) fs.super.blockSize

def dirCtx (lblock : Nat) : DirCtx := ⟨lblock, dirBlock fs inode layout lblock⟩

/-- The entry lies in one block of the directory. An unused one has no name. -/
structure EntryAt (offset : Nat) (e : Dirent) : Prop where
  positive : 0 < e.recLen
  header : offset % fs.super.blockSize + 8 ≤ fs.super.blockSize
  within : offset % fs.super.blockSize + e.recLen ≤ fs.super.blockSize
  number : littleEndian (fileBytes fs inode layout offset 4) = e.inode
  length : littleEndian (fileBytes fs inode layout (offset + 4) 2) = e.recLen
  named : e.Live → littleEndian (fileBytes fs inode layout (offset + 6) 1) = e.name.length ∧
    offset % fs.super.blockSize + 8 + e.name.length ≤ fs.super.blockSize ∧
    fileBytes fs inode layout (offset + 8) e.name.length = e.name

def EntriesFrom : (offset : Nat) → (entries : List Dirent) → Prop
  | offset, [] => offset = inode.size
  | offset, e :: rest => offset < inode.size ∧ EntryAt fs inode layout offset e ∧
      EntriesFrom (offset + e.recLen) rest

instance EntryAt.decidable (offset : Nat) (e : Dirent) : Decidable (EntryAt fs inode layout offset e) :=
  decidable_of_iff (0 < e.recLen ∧ offset % fs.super.blockSize + 8 ≤ fs.super.blockSize ∧
      offset % fs.super.blockSize + e.recLen ≤ fs.super.blockSize ∧
      littleEndian (fileBytes fs inode layout offset 4) = e.inode ∧
      littleEndian (fileBytes fs inode layout (offset + 4) 2) = e.recLen ∧
      (e.Live → littleEndian (fileBytes fs inode layout (offset + 6) 1) = e.name.length ∧
        offset % fs.super.blockSize + 8 + e.name.length ≤ fs.super.blockSize ∧
        fileBytes fs inode layout (offset + 8) e.name.length = e.name))
    ⟨fun ⟨positive, header, within, number, length, named⟩ => ⟨positive, header, within, number, length, named⟩,
      fun entry => ⟨entry.positive, entry.header, entry.within, entry.number, entry.length, entry.named⟩⟩

instance EntriesFrom.decidable : (offset : Nat) → (entries : List Dirent) →
    Decidable (EntriesFrom fs inode layout offset entries)
  | offset, [] => inferInstanceAs (Decidable (offset = inode.size))
  | offset, e :: rest =>
      have := EntriesFrom.decidable (offset + e.recLen) rest
      inferInstanceAs (Decidable (offset < inode.size ∧ EntryAt fs inode layout offset e ∧
        EntriesFrom fs inode layout (offset + e.recLen) rest))

/-- Inode `n` is a directory of these entries. Block 0 is read even of a directory without blocks. -/
structure DirectoryAt (n : Nat) (entries : List Dirent) : Prop where
  stored : inodeGetByNumber fs n = .ok (some inode)
  isDir : inode.isDir = true
  readable : Readable fs inode layout
  mapped : ∀ lblock, lblock < fs.super.bytes2Blocks inode.size → (layout.pblock fs inode lblock).isSome
  first : inode.size = 0 → ∃ ctx, Exec.Returns (dirCtxUpdate fs inode 0) ctx
  chain : EntriesFrom fs inode layout 0 entries

/-- A block of the directory in the buffer is as it is on disk. -/
def Buffers (ctx : DirCtx) : Prop :=
  ctx.lblock * fs.super.blockSize < inode.size → ctx.buf = dirBlock fs inode layout ctx.lblock

end

variable {fs : Fs} {inode : Inode} {layout : Layout} {n : Nat} {entries : List Dirent}

theorem EntriesFrom.le {offset : Nat} {entries : List Dirent} (chain : EntriesFrom fs inode layout offset entries) :
    offset ≤ inode.size := by
  cases entries with
  | nil => exact Nat.le_of_eq chain
  | cons e rest => exact chain.1.le

theorem dirCtx_buf (lblock : Nat) : (dirCtx fs inode layout lblock).buf = dirBlock fs inode layout lblock := rfl

theorem dirCtx_buffers (lblock : Nat) : Buffers fs inode layout (dirCtx fs inode layout lblock) :=
  fun _ => dirCtx_buf lblock

theorem length_dirCtx_buf (lblock : Nat) : (dirCtx fs inode layout lblock).buf.length = fs.super.blockSize :=
  length_fileBytes _ _

theorem dirBlock_slice {lblock pos width : Nat} (inside : pos + width ≤ fs.super.blockSize) :
    ((dirBlock fs inode layout lblock).drop pos).take width =
      fileBytes fs inode layout (lblock * fs.super.blockSize + pos) width := by
  obtain ⟨rest, whole⟩ := Nat.exists_eq_add_of_le inside
  have split : dirBlock fs inode layout lblock =
      fileBytes fs inode layout (lblock * fs.super.blockSize) pos ++
        (fileBytes fs inode layout (lblock * fs.super.blockSize + pos) width ++
          fileBytes fs inode layout (lblock * fs.super.blockSize + pos + width) rest) := by
    rw [← fileBytes_append, ← fileBytes_append, ← Nat.add_assoc, ← whole]
    rfl
  rw [split, List.drop_left' (length_fileBytes _ _), List.take_left' (length_fileBytes _ _)]

theorem entry_slice {offset skip width : Nat}
    (inside : offset % fs.super.blockSize + skip + width ≤ fs.super.blockSize) :
    ((dirCtx fs inode layout (offset / fs.super.blockSize)).buf.drop (offset % fs.super.blockSize + skip)).take width =
      fileBytes fs inode layout (offset + skip) width := by
  rw [dirCtx_buf, dirBlock_slice inside, ← Nat.add_assoc, Nat.div_add_mod']

theorem load_entry {offset skip width : Nat}
    (inside : offset % fs.super.blockSize + skip + width ≤ fs.super.blockSize) :
    load (dirCtx fs inode layout (offset / fs.super.blockSize)).buf (offset % fs.super.blockSize + skip) width =
      .ok (littleEndian (fileBytes fs inode layout (offset + skip) width)) := by
  rw [load_inside (by rw [length_dirCtx_buf]; exact inside), entry_slice inside]

namespace EntryAt
variable {offset : Nat} {e : Dirent}

theorem load_inode (entry : EntryAt fs inode layout offset e) :
    load (dirCtx fs inode layout (offset / fs.super.blockSize)).buf (offset % fs.super.blockSize) 4 = .ok e.inode := by
  have header := entry.header
  have first := @load_entry fs inode layout offset 0 4 (by omega)
  rwa [Nat.add_zero, Nat.add_zero, entry.number] at first

theorem load_recLen (entry : EntryAt fs inode layout offset e) :
    load (dirCtx fs inode layout (offset / fs.super.blockSize)).buf (offset % fs.super.blockSize + 4) 2 =
      .ok e.recLen := by
  have header := entry.header
  rw [← entry.length]
  exact load_entry (by omega)

theorem load_nameLen (entry : EntryAt fs inode layout offset e) (live : e.Live) :
    load (dirCtx fs inode layout (offset / fs.super.blockSize)).buf (offset % fs.super.blockSize + 6) 1 =
      .ok e.name.length := by
  have header := entry.header
  rw [← (entry.named live).1]
  exact load_entry (by omega)

theorem name_slice (entry : EntryAt fs inode layout offset e) (live : e.Live) :
    ((dirCtx fs inode layout (offset / fs.super.blockSize)).buf.drop (offset % fs.super.blockSize + 8)).take
      e.name.length = e.name := by
  obtain ⟨_, inside, name⟩ := entry.named live
  rw [entry_slice inside, name]

end EntryAt

/-! ## The buffered block -/

theorem Readable.block (readable : Readable fs inode layout) {lblock p : Nat}
    (inside : lblock * fs.super.blockSize < inode.size) (mapped : layout.pblock fs inode lblock = some p) :
    ∃ len, (∀ fuel, layout.depth < fuel → inodeGetDataPblock fs inode lblock fuel = .ok (p, len)) ∧
      diskRead fs.disk (fs.super.blocks2Bytes p) fs.super.blockSize = .ok (dirBlock fs inode layout lblock) := by
  obtain ⟨_, positive, bound⟩ := blockSize_eq readable
  have listed := (lt_bytes2Blocks positive).mpr inside
  obtain ⟨len, some, finds, run⟩ := inodeGetDataPblock_mapped readable.valid listed mapped
  obtain ⟨_, room⟩ := readable.onDevice lblock p listed mapped
  refine ⟨len, finds, ?_⟩
  have alone : fs.super.blockSize ≤ len * fs.super.blockSize := Nat.le_mul_of_pos_left _ some
  have bytes := @bytes_run fs inode layout lblock p len 0 fs.super.blockSize positive run (by omega)
  rw [Nat.add_zero, Nat.add_zero] at bytes
  rw [diskRead_ok (bound.trans (by decide)) (by rwa [Super.blocks2Bytes, Nat.add_mul, Nat.one_mul] at room), bytes]
  rfl

theorem Readable.update (readable : Readable fs inode layout) {lblock : Nat}
    (inside : lblock * fs.super.blockSize < inode.size) (mapped : (layout.pblock fs inode lblock).isSome) :
    Exec.Returns (dirCtxUpdate fs inode lblock) (dirCtx fs inode layout lblock) := by
  obtain ⟨p, mapped⟩ := Option.isSome_iff_exists.mp mapped
  obtain ⟨len, finds, reads⟩ := readable.block inside mapped
  refine ⟨layout.depth + 1, ?_⟩
  rw [dirCtxUpdate, finds _ (Nat.lt_succ_self _), Exec.ok_bind]
  simp only
  rw [reads]
  rfl

theorem DirectoryAt.update (dir : DirectoryAt fs inode layout n entries) {lblock : Nat}
    (inside : lblock * fs.super.blockSize < inode.size) :
    Exec.Returns (dirCtxUpdate fs inode lblock) (dirCtx fs inode layout lblock) := by
  obtain ⟨_, positive, _⟩ := blockSize_eq dir.readable
  exact dir.readable.update inside (dir.mapped lblock ((lt_bytes2Blocks positive).mpr inside))

theorem DirectoryAt.opened (dir : DirectoryAt fs inode layout n entries) :
    ∃ ctx, Exec.Returns (dirCtxUpdate fs inode 0) ctx ∧ Buffers fs inode layout ctx := by
  by_cases empty : inode.size = 0
  · obtain ⟨ctx, opens⟩ := dir.first empty
    refine ⟨ctx, opens, ?_⟩
    intro inside
    omega
  · have inside : 0 * fs.super.blockSize < inode.size := by omega
    exact ⟨_, dir.update inside, dirCtx_buffers 0⟩

theorem dentryGet_end (ctx : DirCtx) (fuel : Nat) :
    inodeDentryGet fs inode inode.size ctx fuel = .ok (none, ctx) := by
  rw [inodeDentryGet, Exec.check_pos _ (Nat.le_refl _), Exec.ok_bind, if_pos rfl]
  rfl

theorem DirectoryAt.dentryGet (dir : DirectoryAt fs inode layout n entries) {offset : Nat} {ctx : DirCtx}
    (inside : offset < inode.size) (buffers : Buffers fs inode layout ctx) :
    Exec.Returns (inodeDentryGet fs inode offset ctx)
      (some (offset % fs.super.blockSize), dirCtx fs inode layout (offset / fs.super.blockSize)) := by
  have block : offset / fs.super.blockSize * fs.super.blockSize < inode.size :=
    (Nat.div_mul_le_self _ _).trans_lt inside
  unfold inodeDentryGet
  simp only [blockNumber_eq dir.readable inside, Exec.check_pos _ inside.le, Exec.ok_bind,
    if_neg (Nat.ne_of_gt inside)]
  by_cases same : offset / fs.super.blockSize = ctx.lblock
  · obtain ⟨lblock, buf⟩ := ctx
    simp only at same
    subst same
    rw [dirCtx, ← show buf = _ from buffers block]
    exact ⟨0, if_pos rfl⟩
  · obtain ⟨fuel, reads⟩ := dir.update block
    refine ⟨fuel, ?_⟩
    simp only [if_neg same, reads]
    rfl

/-! ## An image with a directory of two blocks -/

theorem pblock_single {len p lblock : Nat} (less : lblock < len) :
    Layout.pblock fs inode (.extents 0 [⟨0, len, 0, p⟩]) lblock = some (p + lblock) := by
  simp [Layout.pblock, RangeTree.entries, less]

theorem Readable.ofExtent {len p : Nat} (blockSize : fs.super.logBlockSize ≤ 6)
    (valid : (Layout.extents 0 [⟨0, len, 0, p⟩]).Valid fs inode) (nonzero : p ≠ 0)
    (blocks : fs.super.bytes2Blocks inode.size = len) (room : fs.super.blocks2Bytes (p + len) ≤ fs.disk.size) :
    Readable fs inode (.extents 0 [⟨0, len, 0, p⟩]) := by
  have bound : len < 2 ^ 32 := by
    have logical := (valid.2.initialised ⟨0, len, 0, p⟩ (List.mem_singleton_self _)).logical
    simpa using logical
  refine ⟨blockSize, valid, by rw [blocks]; exact bound.le, ?_⟩
  intro lblock q inside same
  rw [blocks] at inside
  rw [pblock_single inside] at same
  cases same
  refine ⟨by omega, Nat.le_trans ?_ room⟩
  exact Nat.mul_le_mul_right _ (by omega)

theorem DirectoryAt.ofExtent {len p : Nat} (stored : inodeGetByNumber fs n = .ok (some inode))
    (isDir : inode.isDir = true) (blockSize : fs.super.logBlockSize ≤ 6)
    (valid : (Layout.extents 0 [⟨0, len, 0, p⟩]).Valid fs inode) (some : 0 < len) (nonzero : p ≠ 0)
    (blocks : fs.super.bytes2Blocks inode.size = len) (room : fs.super.blocks2Bytes (p + len) ≤ fs.disk.size)
    (chain : EntriesFrom fs inode (.extents 0 [⟨0, len, 0, p⟩]) 0 entries) :
    DirectoryAt fs inode (.extents 0 [⟨0, len, 0, p⟩]) n entries := by
  refine ⟨stored, isDir, .ofExtent blockSize valid nonzero blocks room, ?_, ?_, chain⟩
  · intro lblock inside
    rw [blocks] at inside
    rw [pblock_single inside]
    rfl
  · intro empty
    rw [empty, Super.bytes2Blocks, Nat.zero_div, Nat.zero_mod] at blocks
    simp at blocks
    omega

def treeInode : Inode := ⟨0x41ed, 2048, 0x80000, leafNode [⟨0, 2, 0, 10⟩] ++ List.replicate 36 0⟩

/-- The root holds the file `a`, and the directory `b` behind an unused entry in its second block. -/
def treeDisk : Disk := smallDisk [inodeAt 2 treeInode, inodeAt 12 (dirInode 12),
  (10240, dots 2 2 ++ dentry 14 1000 nameA), (11264, dentry 0 12 [] ++ [0, 0, 0, 0] ++ dentry 12 1012 nameB),
  (12288, dots 12 2 ++ dentry 13 1000 nameA)]

def treeFs : Fs := ⟨treeDisk, smallSuper, [5]⟩

def treeRoot : List Dirent :=
  [⟨2, 12, [0x2e]⟩, ⟨2, 12, [0x2e, 0x2e]⟩, ⟨14, 1000, nameA⟩, ⟨0, 12, []⟩, ⟨12, 1012, nameB⟩]

def treeSub : List Dirent := [⟨12, 12, [0x2e]⟩, ⟨2, 12, [0x2e, 0x2e]⟩, ⟨13, 1000, nameA⟩]

theorem treeRoot_at : DirectoryAt treeFs treeInode (.extents 0 [⟨0, 2, 0, 10⟩]) 2 treeRoot := by
  refine .ofExtent (by decide +kernel) rfl (by decide) (singleExtent_valid (by decide) (by decide +kernel)
    (by decide +kernel) ⟨rfl, by decide, by decide, by decide, by decide⟩) (by decide) (by decide) (by decide) (by decide) ?_
  decide +kernel

theorem treeSub_at : DirectoryAt treeFs (dirInode 12) (.extents 0 [⟨0, 1, 0, 12⟩]) 12 treeSub := by
  refine .ofExtent (by decide +kernel) rfl (by decide) (singleExtent_valid (by decide) (by decide +kernel)
    (by decide +kernel) ⟨rfl, by decide, by decide, by decide, by decide⟩) (by decide) (by decide) (by decide) (by decide) ?_
  decide +kernel

end SampleFs.Proof.Fuse

import SampleFs.Fuse.OpReadlink
import SampleFs.Proof.Fuse.Readdir

namespace SampleFs.Proof.Fuse
open Lib SampleFs.Fuse

/-! ## Links on disk -/

/-- A target of less than 60 bytes is in `i_block`, a longer one in the first data block. -/
structure LinkAt (fs : Fs) (inode : Inode) (layout : Layout) (target : List UInt8) : Prop where
  isLnk : inode.isLnk = true
  size : inode.size = target.length
  noNul : 0 ∉ target
  sized : inode.block.length = 60
  fast : target.length < 60 → inode.block.take target.length = target
  slow : 60 ≤ target.length → target.length ≤ fs.super.blockSize ∧ Readable fs inode layout ∧
    (layout.pblock fs inode 0).isSome ∧ fileBytes fs inode layout 0 target.length = target

/-- Where the code keeps the target whole: it copies 60 bytes from `i_block` as it does fewer, and
does not look for the end of the block it copies from. -/
def TargetKept (fs : Fs) (inode : Inode) (layout : Layout) (target : List UInt8) (bufsize : Nat) : Prop :=
  target.length < 60 ∨ target.length = 60 ∧ inode.block = target ∨
    60 < target.length ∧ (0 ∈ dirBlock fs inode layout 0 ∨ bufsize ≤ fs.super.blockSize + 1)

/-- What a lookup has found, and what `op_readlink` has to do with it. -/
def ReadlinkAnswers (fs : Fs) (d : Dcache) (path buf : List UInt8) (d' : Dcache) : Option Inode → Prop
  | none => ∃ ret buf', ret < 0 ∧ Exec.Returns (opReadlink fs d path buf) (ret, buf', d')
  | some inode =>
      (inode.isLnk = false → Exec.Returns (opReadlink fs d path buf) (-einval, buf, d')) ∧
      ∀ layout target, LinkAt fs inode layout target → target.length < buf.length →
        ∃ buf', Exec.Returns (opReadlink fs d path buf) (0, buf', d') ∧ target ++ [0] <+: buf'

def ReadlinkSafe (fs : Fs) (found : Option Inode) (bufsize : Nat) : Prop :=
  ∃ inode, found = some inode ∧ ∀ layout target, LinkAt fs inode layout target → target.length < bufsize →
    TargetKept fs inode layout target bufsize

/-! ## What is left in the buffer -/

section
variable {fs : Fs} {inode : Inode} {layout : Layout} {target buf : List UInt8} {d d' : Dcache} {path : List UInt8}

theorem linkText_growing (fs : Fs) (inode : Inode) (bufsize : Nat) : Exec.Growing (linkText fs inode bufsize) := by
  unfold linkText
  refine .ite (.const _) ?_
  exact .bind (inodeGetDataPblock_growing fs inode 0) fun _ => .const _

theorem getLinkDest_growing (fs : Fs) (inode : Inode) (buf : List UInt8) : Exec.Growing (getLinkDest fs inode buf) := by
  unfold getLinkDest
  exact .bind (linkText_growing fs inode buf.length) fun _ => .const _

theorem opReadlink_found (looked : Exec.Returns (inodeGetByPath fs d path) (some inode, d')) {ret : Int}
    {buf' : List UInt8} {e : Dcache} : Exec.Returns (opReadlink fs d path buf) (ret, buf', e) ↔ e = d' ∧
      if inode.isLnk then ret = 0 ∧ Exec.Returns (getLinkDest fs inode buf) buf' else ret = -einval ∧ buf' = buf := by
  unfold opReadlink
  refine Iff.trans (Exec.returns_bind_of (inodeGetByPath_growing fs d path) ?_ looked) ?_
  · rintro ⟨_ | other, e⟩
    · exact .const _
    · exact .ite (.bind (getLinkDest_growing fs other buf) fun _ => .const _) (.const _)
  · by_cases link : inode.isLnk = true
    · simp only [if_pos link]
      refine Iff.trans (Exec.returns_bind (getLinkDest_growing fs inode buf) ?_) ?_
      · exact fun _ => .const _
      · simp only [Exec.returns_const, Exec.pure_eq, Exec.ok.injEq, Prod.mk.injEq]
        constructor
        · rintro ⟨out, returns, rfl, rfl, rfl⟩
          exact ⟨rfl, rfl, returns⟩
        · rintro ⟨rfl, rfl, returns⟩
          exact ⟨buf', returns, rfl, rfl, rfl⟩
    · simp only [if_neg link, Exec.returns_const, Exec.pure_eq, Exec.ok.injEq, Prod.mk.injEq]
      constructor
      · rintro ⟨rfl, rfl, rfl⟩
        exact ⟨rfl, rfl, rfl⟩
      · rintro ⟨rfl, rfl, rfl⟩
        exact ⟨rfl, rfl, rfl⟩

theorem opReadlink_missing (looked : Exec.Returns (inodeGetByPath fs d path) (none, d')) {result : Int × List UInt8 × Dcache} :
    ¬ Exec.Returns (opReadlink fs d path buf) result := by
  unfold opReadlink
  refine mt (Exec.returns_bind_of (inodeGetByPath_growing fs d path) ?_ looked).mp ?_
  · rintro ⟨_ | other, e⟩
    · exact .const _
    · exact .ite (.bind (getLinkDest_growing fs other buf) fun _ => .const _) (.const _)
  · rintro ⟨fuel, fails⟩
    cases fails

theorem getLinkDest_returns {text : List UInt8} (copies : Exec.Returns (linkText fs inode buf.length) text)
    (fits : text.length ≤ buf.length) (room : inode.size < buf.length) :
    Exec.Returns (getLinkDest fs inode buf) ((text ++ buf.drop text.length).take inode.size ++ [0] ++
      (text ++ buf.drop text.length).drop (inode.size + 1)) := by
  refine Iff.mpr (Exec.returns_bind_of (linkText_growing fs inode buf.length) ?_ copies) ⟨0, ?_⟩
  · exact fun _ => .const _
  have first : storeBytes buf 0 text = .ok (text ++ buf.drop text.length) := by
    rw [storeBytes_inside (by omega), List.take_zero, Nat.zero_add, List.nil_append]
  have long : (text ++ buf.drop text.length).length = buf.length := by
    rw [List.length_append, List.length_drop]
    omega
  have second := @storeBytes_inside (text ++ buf.drop text.length) [0] inode.size
    (by rw [long, List.length_singleton]; exact room)
  simp only [first, Exec.ok_bind]
  exact second

theorem leaves_iff {text : List UInt8} (copies : Exec.Returns (linkText fs inode buf.length) text)
    (fits : text.length ≤ buf.length) (room : target.length < buf.length) (size : inode.size = target.length)
    (covers : target.length ≤ text.length) :
    (∃ buf', Exec.Returns (getLinkDest fs inode buf) buf' ∧ target ++ [0] <+: buf') ↔ target <+: text := by
  have returns := getLinkDest_returns copies fits (by rw [size]; exact room)
  rw [size, List.take_append_of_le_length covers] at returns
  have long : (text.take target.length).length = target.length := by
    rw [List.length_take]
    omega
  constructor
  · rintro ⟨buf', leaves, rest, same⟩
    rw [Exec.Returns.unique (getLinkDest_growing fs inode buf) leaves returns, List.append_assoc,
      List.append_assoc] at same
    rw [List.append_inj_left same long.symm]
    exact List.take_prefix ..
  · intro starts
    refine ⟨_, returns, ?_⟩
    rw [← List.prefix_iff_eq_take.mp starts]
    exact List.prefix_append ..

theorem linkText_fast (sized : inode.block.length = 60) (short : inode.size ≤ 60) (bufsize : Nat) :
    Exec.Returns (linkText fs inode bufsize) (inode.block.take inode.size) := by
  refine ⟨0, ?_⟩
  rw [linkText, if_pos short, Exec.check_pos _ (by omega)]
  rfl

theorem linkText_slow (link : LinkAt fs inode layout target) (long : 60 < target.length) {bufsize : Nat}
    {text : List UInt8} : Exec.Returns (linkText fs inode bufsize) text ↔
      strncpyBytes (dirBlock fs inode layout 0) (bufsize - 1) = .ok text := by
  obtain ⟨_, readable, mapped, _⟩ := link.slow long.le
  obtain ⟨p, mapped⟩ := Option.isSome_iff_exists.mp mapped
  have size := link.size
  obtain ⟨len, finds, reads⟩ := readable.block (by omega) mapped
  unfold linkText
  simp only [if_neg (show ¬ inode.size ≤ 60 by omega)]
  refine Iff.trans (Exec.returns_bind_of (inodeGetDataPblock_growing fs inode 0) ?_
    ⟨layout.depth + 1, finds _ (Nat.lt_succ_self _)⟩) ?_
  · exact fun _ => .const _
  simp only [reads, Exec.ok_bind, Exec.returns_const]

theorem target_starts (link : LinkAt fs inode layout target) (long : 60 ≤ target.length) :
    target <+: dirBlock fs inode layout 0 := by
  obtain ⟨inside, _, _, stored⟩ := link.slow long
  have slice := @dirBlock_slice fs inode layout 0 0 target.length (by omega)
  rw [List.drop_zero, Nat.zero_mul, stored] at slice
  rw [← slice]
  exact List.take_prefix ..

theorem targetKept_long (long : 60 < target.length) {bufsize : Nat} : TargetKept fs inode layout target bufsize ↔
    0 ∈ dirBlock fs inode layout 0 ∨ bufsize - 1 ≤ (dirBlock fs inode layout 0).length := by
  rw [dirBlock, length_fileBytes]
  unfold TargetKept
  constructor
  · rintro (short | ⟨same, _⟩ | ⟨_, ends | small⟩)
    · omega
    · omega
    · exact .inl ends
    · exact .inr (by omega)
  · rintro (ends | small)
    · exact .inr (.inr ⟨long, .inl ends⟩)
    · exact .inr (.inr ⟨long, .inr (by omega)⟩)

theorem link_answered (looked : Exec.Returns (inodeGetByPath fs d path) (some inode, d'))
    (link : LinkAt fs inode layout target) (room : target.length < buf.length) :
    (∃ buf', Exec.Returns (opReadlink fs d path buf) (0, buf', d') ∧ target ++ [0] <+: buf') ↔
      TargetKept fs inode layout target buf.length := by
  have size := link.size
  simp only [opReadlink_found looked, if_pos link.isLnk, true_and]
  rcases Nat.lt_trichotomy target.length 60 with short | exact_ | long
  · have copies := @linkText_fast fs inode link.sized (by omega) buf.length
    rw [size, link.fast short] at copies
    rw [leaves_iff copies (by omega) room size (Nat.le_refl _)]
    exact iff_of_true (List.prefix_refl _) (.inl short)
  · have copies := @linkText_fast fs inode link.sized (by omega) buf.length
    rw [size, exact_, List.take_of_length_le link.sized.le] at copies
    rw [leaves_iff copies (by rw [link.sized]; omega) room size (by rw [link.sized]; omega)]
    constructor
    · intro starts
      exact .inr (.inl ⟨exact_, (starts.eq_of_length (by rw [link.sized, exact_])).symm⟩)
    · rintro (short | ⟨_, same⟩ | ⟨long, _⟩)
      · omega
      · rw [same]
      · omega
  · rw [targetKept_long long, ← strncpyBytes_ok]
    constructor
    · rintro ⟨buf', ⟨fuel, runs⟩, _⟩
      obtain ⟨text, copies, _⟩ := Exec.bind_eq_ok.mp runs
      exact ⟨text, (linkText_slow link long).mp ⟨fuel, copies⟩⟩
    · rintro ⟨text, copies⟩
      have length := length_strncpyBytes copies
      have kept := strncpyBytes_keeps copies link.noNul (target_starts link long.le) (by omega)
      exact (leaves_iff ((linkText_slow link long).mpr copies) (by omega) room size (by omega)).mpr kept

theorem readlink_targets {found : Option Inode} (looked : Exec.Returns (inodeGetByPath fs d path) (found, d'))
    (buf : List UInt8) : ReadlinkAnswers fs d path buf d' found ↔ ReadlinkSafe fs found buf.length := by
  cases found with
  | none =>
      refine iff_of_false ?_ ?_
      · rintro ⟨ret, buf', _, returns⟩
        exact opReadlink_missing looked returns
      · rintro ⟨inode, missing, _⟩
        cases missing
  | some inode =>
      constructor
      · rintro ⟨_, targets⟩
        refine ⟨inode, rfl, ?_⟩
        intro layout target link room
        exact (link_answered looked link room).mp (targets layout target link room)
      · rintro ⟨_, same, kept⟩
        cases same
        refine ⟨?_, ?_⟩
        · intro other
          refine (opReadlink_found looked).mpr ⟨rfl, ?_⟩
          rw [if_neg (by simp [other])]
          exact ⟨rfl, rfl⟩
        · intro layout target link room
          exact (link_answered looked link room).mpr (kept layout target link room)

end

/-! ## A target of 60 bytes -/

def longLink : Inode := ⟨0xa1ff, 61, 0x80000, leafNode [⟨0, 1, 0, 20⟩] ++ List.replicate 36 0⟩
def sixtyLink : Inode := ⟨0xa1ff, 60, 0x80000, leafNode [⟨0, 1, 0, 21⟩] ++ List.replicate 36 0⟩

def sixtyTarget : List UInt8 := List.replicate 60 0x79

/-- The root holds the link `a` with a target of 61 bytes, and the link `b` with one of 60. -/
def linkDisk : Disk := smallDisk [inodeAt 2 (dirInode 10), inodeAt 13 longLink, inodeAt 14 sixtyLink,
  (10240, dots 2 2 ++ dentry 13 12 nameA ++ [0, 0, 0] ++ dentry 14 988 nameB), (20480, 0x78 :: sixtyTarget),
  (21504, sixtyTarget)]

def linkFs : Fs := ⟨linkDisk, smallSuper, [5]⟩

theorem linkFs_mounted : opInit linkDisk = .ok linkFs := opInit_small (by decide +kernel) (by decide +kernel)

theorem linkFs_looked {path : List UInt8} {found : Option Inode} {d' : Dcache}
    (runs : inodeGetByPath linkFs inodeInit path 5 = .ok (found, d')) :
    Exec.Returns (inodeGetByPath linkFs inodeInit path) (found, d') := ⟨5, runs⟩

theorem linkFs_long : inodeGetByPath linkFs inodeInit (slash :: nameA) 5 = .ok (some longLink, cacheOf 13 nameA) := by
  decide +kernel

theorem readlink_targets_long : ReadlinkAnswers linkFs inodeInit (slash :: nameA) (List.replicate 100 0xff)
    (cacheOf 13 nameA) (some longLink) := by
  refine (readlink_targets (linkFs_looked linkFs_long) _).mpr ⟨longLink, rfl, ?_⟩
  intro layout target link _
  have size : 61 = target.length := link.size
  exact .inr (.inr ⟨by omega, .inr (by decide)⟩)

theorem sixtyLink_at : LinkAt linkFs sixtyLink (.extents 0 [⟨0, 1, 0, 21⟩]) sixtyTarget := by
  have valid : (Layout.extents 0 [⟨0, 1, 0, 21⟩]).Valid linkFs sixtyLink := singleExtent_valid (by decide)
    (by decide +kernel) (by decide +kernel) ⟨rfl, by decide, by decide, by decide, by decide⟩
  refine ⟨by decide, by decide, by decide, by decide, fun short => ?_, fun _ => ⟨by decide, ?_, ?_, by decide +kernel⟩⟩
  · exact absurd short (by decide)
  · exact .ofExtent (by decide) valid (by decide) (by decide) (by decide)
  · rw [pblock_single (by decide)]
    rfl

theorem readlink_sixty : opInit linkDisk = .ok linkFs ∧
    LinkAt linkFs sixtyLink (.extents 0 [⟨0, 1, 0, 21⟩]) sixtyTarget ∧
    inodeGetByPath linkFs inodeInit (slash :: nameB) 5 = .ok (some sixtyLink, cacheOf 14 nameB) ∧
    ¬ ReadlinkAnswers linkFs inodeInit (slash :: nameB) (List.replicate 100 0xff) (cacheOf 14 nameB) (some sixtyLink) ∧
    inodeGetByPath linkFs inodeInit (slash :: nameA ++ nameB) 5 = .ok (none, inodeInit) ∧
    opReadlink linkFs inodeInit (slash :: nameA ++ nameB) (List.replicate 100 0xff) 5 = .fail .uninitialised ∧
    ¬ ReadlinkAnswers linkFs inodeInit (slash :: nameA ++ nameB) (List.replicate 100 0xff) inodeInit none := by
  have found : inodeGetByPath linkFs inodeInit (slash :: nameB) 5 = .ok (some sixtyLink, cacheOf 14 nameB) := by
    decide +kernel
  have missing : inodeGetByPath linkFs inodeInit (slash :: nameA ++ nameB) 5 = .ok (none, inodeInit) := by decide +kernel
  refine ⟨linkFs_mounted, sixtyLink_at, found, ?_, missing, by decide +kernel, ?_⟩
  · rintro ⟨_, targets⟩
    have kept := (link_answered (linkFs_looked found) sixtyLink_at (by decide)).mp (targets _ _ sixtyLink_at (by decide))
    rcases kept with short | ⟨_, same⟩ | ⟨long, _⟩
    · exact absurd short (by decide)
    · exact absurd same (by decide)
    · exact absurd long (by decide)
  · rintro ⟨ret, buf', _, returns⟩
    exact opReadlink_missing (linkFs_looked missing) returns

end SampleFs.Proof.Fuse

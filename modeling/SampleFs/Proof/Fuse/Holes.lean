import SampleFs.Proof.Fuse.Layout

namespace SampleFs.Proof.Fuse
open Lib SampleFs.Fuse

theorem hole_lookup {fs : Fs} {inode : Inode} {layout : Layout} (valid : layout.Valid fs inode)
    {lblock : Nat} (inside : lblock < fs.super.bytes2Blocks inode.size)
    (hole : layout.pblock fs inode lblock = none) :
    Exec.Returns (inodeGetDataPblock fs inode lblock) (0, 1) ↔ layout.Visible fs inode lblock := by
  constructor
  · intro returns
    obtain ⟨enough, runs⟩ := returns.of_le (inodeGetDataPblock_growing fs inode lblock)
    apply (inodeGetDataPblock_visible valid inside hole (Nat.lt_succ_of_le (Nat.le_max_right enough _))).mp
    exact runs _ ((Nat.le_max_left enough layout.depth).trans (Nat.le_succ _))
  · intro visible
    exact ⟨layout.depth + 1, (inodeGetDataPblock_visible valid inside hole (Nat.lt_succ_self _)).mpr visible⟩

def oneExtent : Extent := ⟨4, 2, 0, 30⟩

def oneExtentInode : Inode where
  mode := 0x81a4
  size := 8192
  flags := 0x80000
  block := leafNode [oneExtent] ++ List.replicate 36 0

def oneExtentLayout : Layout := .extents 0 [oneExtent]

theorem oneExtent_valid : oneExtentLayout.Valid twoLeafFs oneExtentInode :=
  singleExtent_valid (by decide) (by decide +kernel) (by decide +kernel)
    ⟨rfl, by decide, by decide, by decide, by decide⟩

theorem hole_lookup_behind : Exec.Returns (inodeGetDataPblock twoLeafFs oneExtentInode 7) (0, 1) :=
  (hole_lookup oneExtent_valid (by decide) (by decide)).mpr (show 6 ≤ 7 by decide)

theorem hole_before_extent : oneExtentLayout.Valid twoLeafFs oneExtentInode ∧
    0 < twoLeafFs.super.bytes2Blocks oneExtentInode.size ∧
    oneExtentLayout.pblock twoLeafFs oneExtentInode 0 = none ∧
    ¬ Exec.Returns (inodeGetDataPblock twoLeafFs oneExtentInode 0) (0, 1) := by
  refine ⟨oneExtent_valid, by decide, by decide, ?_⟩
  intro returns
  have runs : inodeGetDataPblock twoLeafFs oneExtentInode 0 1 = .ok (26, 6) := by decide +kernel
  have same := Exec.Returns.unique (inodeGetDataPblock_growing _ _ _) ⟨1, runs⟩ returns
  exact absurd same (by decide)

end SampleFs.Proof.Fuse

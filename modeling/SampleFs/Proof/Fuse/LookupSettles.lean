import SampleFs.Lib.Settles
import SampleFs.Fuse.Lookup
import SampleFs.Proof.Fuse.AlignedRead
import SampleFs.Proof.Fuse.ExtentBounds

namespace SampleFs.Proof.Fuse
open Lib SampleFs.Fuse

def Asserted (fault : Fault) : Prop := fault = .assertFailed

/-- The lookup of the block goes round in no circle, and its scan of the root stays in `i_block`. -/
def LookupSound (fs : Fs) (inode : Inode) (lblock : Nat) : Prop :=
  inode.flags.testBit ext4ExtentsFlBit = true →
    NoBlockTwice fs lblock inode.block ∧ NodeFits lblock iBlockBytes inode.block

theorem check_settled (p : Prop) [Decidable p] : Exec.Settled Asserted (Exec.check p .assertFailed) := by
  unfold Exec.check
  split
  · trivial
  · rfl

theorem load_settled {buf : List UInt8} {pos width : Nat} :
    Exec.Settled Asserted (load buf pos width) ↔ pos + width ≤ buf.length := by
  by_cases inside : pos + width ≤ buf.length
  · rw [load_inside inside]
    exact iff_of_true trivial inside
  · rw [load, Exec.check_neg _ inside]
    exact iff_of_false (fun settled => by cases settled) inside

theorem diskRead_eq_ok {disk : Disk} {start size : Nat} {bytes : List UInt8}
    (reads : diskRead disk start size = .ok bytes) : bytes = disk.bytes start size := by
  obtain ⟨_, _, same⟩ := Exec.bind_eq_ok.mp reads
  exact (Exec.ok.inj same).symm

theorem diskRead_settled (disk : Disk) (start size : Nat) : Exec.Settled Asserted (diskRead disk start size) :=
  Exec.settled_bind.mpr ⟨check_settled _, fun _ _ => trivial⟩

theorem diskReadU32_settled (disk : Disk) (start : Nat) : Exec.Settled Asserted (diskReadU32 disk start) := by
  refine Exec.settled_bind.mpr ⟨diskRead_settled disk start 4, ?_⟩
  intro word reads
  rw [diskRead_eq_ok reads, load_settled, Disk.length_bytes]

/-! ## The scan of a node -/

section
variable {fs : Fs} {lblock len count : Nat} {node : List UInt8}

/-- The memory of the node holds its header and this many entries. -/
def HoldsEntries (count : Nat) (node : List UInt8) : Prop := node.length = extentHeaderBytes + extentBytes * count

theorem HoldsEntries.header_le (holds : HoldsEntries count node) : extentHeaderBytes ≤ node.length := by
  rw [holds]
  exact Nat.le_add_right ..

theorem HoldsEntries.inside (holds : HoldsEntries count node) {i : Nat} :
    extentHeaderBytes + extentBytes * i + extentBytes ≤ node.length ↔ i < count := by
  rw [holds]
  simp only [extentHeaderBytes, extentBytes]
  omega

theorem HoldsEntries.header (holds : HoldsEntries count node) : extentHeader node = .ok ⟨littleEndian ((node.drop 0).take 2),
    littleEndian ((node.drop 2).take 2), littleEndian ((node.drop 6).take 2)⟩ := by
  unfold HoldsEntries at holds
  simp only [extentHeaderBytes, extentBytes] at holds
  rw [extentHeader, load_inside (by omega), load_inside (by omega), load_inside (by omega)]
  rfl

theorem extentAt_settled (holds : HoldsEntries count node) {i : Nat} :
    Exec.Settled Asserted (extentAt node i) ↔ i < count := by
  unfold HoldsEntries at holds
  simp only [extentHeaderBytes, extentBytes] at holds
  simp only [extentAt, extentHeaderBytes, extentBytes]
  by_cases inside : i < count
  · rw [load_inside (by omega), load_inside (by omega), load_inside (by omega), load_inside (by omega)]
    exact iff_of_true trivial inside
  · refine iff_of_false (fun settled => ?_) inside
    have first := load_settled.mp (Exec.settled_bind.mp settled).1
    omega

theorem extentIdxAt_settled (holds : HoldsEntries count node) {i : Nat} :
    Exec.Settled Asserted (extentIdxAt node i) ↔ i < count := by
  unfold HoldsEntries at holds
  simp only [extentHeaderBytes, extentBytes] at holds
  simp only [extentIdxAt, extentHeaderBytes, extentBytes]
  by_cases inside : i < count
  · rw [load_inside (by omega), load_inside (by omega), load_inside (by omega)]
    exact iff_of_true trivial inside
  · refine iff_of_false (fun settled => ?_) inside
    have first := load_settled.mp (Exec.settled_bind.mp settled).1
    omega

/-- One round of either scan: its entry is there, and the rest settles if the scan passes it. -/
theorem round_settled {τ ρ : Type} {entry : Exec Fault τ} {low stop : τ → Prop} [DecidablePred low] [DecidablePred stop]
    {found : τ → ρ} {rest : τ → Exec Fault ρ} :
    Exec.Settled Asserted (do
        let e ← entry
        Exec.check (low e) .assertFailed
        if stop e then .ok (found e) else rest e : Exec Fault ρ) ↔
      Exec.Settled Asserted entry ∧ ∀ e, entry = .ok e → low e → ¬ stop e → Exec.Settled Asserted (rest e) := by
  simp only [Exec.settled_bind]
  refine and_congr_right fun _ => ⟨?_, ?_⟩
  · intro all e reads passes goes
    have later := (all e reads).2 () (Exec.check_pos _ passes)
    rwa [if_neg goes] at later
  · intro all e reads
    refine ⟨check_settled _, fun _ passes => ?_⟩
    by_cases stops : stop e
    · rw [if_pos stops]
      trivial
    · rw [if_neg stops]
      exact all e reads (Exec.check_eq_ok.mp passes) stops

theorem extentScan_settled (holds : HoldsEntries count node) (left i : Nat) :
    Exec.Settled Asserted (extentScan node lblock len left i) ↔
      ScanFits (LeafPasses node lblock) node.length left i := by
  induction left generalizing i with
  | zero => exact iff_of_true trivial (scanFits_zero _ _ _)
  | succ left ih =>
      refine Iff.trans round_settled ?_
      rw [scanFits_succ, holds.inside, extentAt_settled holds]
      refine and_congr_right fun _ => ⟨?_, ?_⟩
      · rintro later ⟨ee, reads, low, goes⟩
        exact (ih (i + 1)).mp (later ee reads low goes)
      · intro later ee reads low goes
        exact (ih (i + 1)).mpr (later ⟨ee, reads, low, goes⟩)

theorem indexScan_settled (holds : HoldsEntries count node) (left i : Nat) (best : Option ExtentIdx) :
    Exec.Settled Asserted (indexScan node lblock left i best) ↔
      ScanFits (IndexPasses node lblock) node.length left i := by
  induction left generalizing i best with
  | zero => exact iff_of_true trivial (scanFits_zero _ _ _)
  | succ left ih =>
      refine Iff.trans round_settled ?_
      rw [scanFits_succ, holds.inside, extentIdxAt_settled holds]
      refine and_congr_right fun _ => ⟨?_, ?_⟩
      · rintro later ⟨ei, reads, low, goes⟩
        exact (ih (i + 1) (some ei)).mp (later ei reads low goes)
      · intro later ei reads low goes
        exact (ih (i + 1) (some ei)).mpr (later ⟨ei, reads, low, goes⟩)

/-! ## The levels of a lookup -/

theorem extentGetExtentsInBlock_settled (block : Nat) :
    Exec.Settled Asserted (extentGetExtentsInBlock fs block) := by
  refine Exec.settled_bind.mpr ⟨diskRead_settled _ _ _, ?_⟩
  intro eh reads
  refine Exec.settled_bind.mpr ⟨?_, fun _ _ => diskRead_settled _ _ _⟩
  rw [diskRead_eq_ok reads, load_settled, Disk.length_bytes]
  decide

theorem fetched_holds {block : Nat} (fetched : extentGetExtentsInBlock fs block = .ok node) :
    ∃ eh, extentHeader node = .ok eh ∧ HoldsEntries eh.entries node := by
  obtain ⟨head, first, rest⟩ := Exec.bind_eq_ok.mp fetched
  obtain ⟨entries, loads, rest⟩ := Exec.bind_eq_ok.mp rest
  rw [diskRead_eq_ok first] at loads
  rw [diskRead_eq_ok rest]
  rw [load_inside (by rw [Disk.length_bytes]; decide), Disk.bytes_slice _ (by decide)] at loads
  have holds : HoldsEntries entries
      (fs.disk.bytes (fs.super.blocks2Bytes block) (entries * extentBytes + extentHeaderBytes)) := by
    rw [HoldsEntries, Disk.length_bytes, Nat.mul_comm, Nat.add_comm]
  refine ⟨_, holds.header, ?_⟩
  have same : littleEndian (((fs.disk.bytes (fs.super.blocks2Bytes block)
      (entries * extentBytes + extentHeaderBytes)).drop 2).take 2) = entries := by
    rw [Disk.bytes_slice _ (by simp only [extentHeaderBytes]; omega)]
    exact Exec.ok.inj loads
  simp only [same]
  exact holds

theorem fetched_fits {block : Nat} (fetched : extentGetExtentsInBlock fs block = .ok node) :
    NodeFits lblock node.length node := by
  obtain ⟨eh, header, holds⟩ := fetched_holds fetched
  refine ⟨holds.header_le, ?_⟩
  intro other header' _
  rw [header] at header'
  cases header'
  left
  rw [capacity, holds, Nat.add_sub_cancel_left, Nat.mul_div_cancel_left _ (by decide)]

theorem level_settled (holds : HoldsEntries count node) {fuel : Nat} :
    Exec.Settled Asserted (extentGetPblock fs lblock len (fuel + 1) node) ↔
      NodeFits lblock node.length node ∧ ∀ next child, entered fs lblock node = some next →
        extentGetExtentsInBlock fs next = .ok child → Exec.Settled Asserted (extentGetPblock fs lblock len fuel child) := by
  rw [extentGetPblock, Exec.settled_bind, nodeFits_iff]
  constructor
  · rintro ⟨_, all⟩
    refine ⟨⟨holds.header_le, fun eh header magic => ?_⟩, ?_⟩
    · have rest := (Exec.settled_bind.mp (all eh header)).2 () (Exec.check_pos _ magic)
      by_cases leaf : eh.depth = 0
      · rw [if_pos leaf] at rest
        rw [passes_leaf leaf]
        exact (extentScan_settled holds _ _).mp rest
      · rw [if_neg leaf] at rest
        rw [passes_index leaf]
        exact (indexScan_settled holds _ _ _).mp (Exec.settled_bind.mp rest).1
    · intro next child enters fetched
      obtain ⟨eh, header, magic, deep, ei, scans, rfl⟩ := indexedBlock_eq_some.mp (entered_eq_some.mp enters).1
      have rest := (Exec.settled_bind.mp (all eh header)).2 () (Exec.check_pos _ magic)
      rw [if_neg deep] at rest
      have below := (Exec.settled_bind.mp rest).2 (some ei) scans
      exact (Exec.settled_bind.mp below).2 child fetched
  · rintro ⟨⟨_, fits⟩, below⟩
    refine ⟨by rw [holds.header]; trivial, fun eh header => ?_⟩
    refine Exec.settled_bind.mpr ⟨check_settled _, fun _ passes => ?_⟩
    have magic := Exec.check_eq_ok.mp passes
    have scan := fits eh header magic
    by_cases leaf : eh.depth = 0
    · rw [passes_leaf leaf] at scan
      rw [if_pos leaf]
      exact (extentScan_settled holds _ _).mpr scan
    · rw [passes_index leaf] at scan
      rw [if_neg leaf]
      refine Exec.settled_bind.mpr ⟨(indexScan_settled holds _ _ _).mpr scan, fun picked scans => ?_⟩
      cases picked with
      | none => rfl
      | some ei =>
          refine Exec.settled_bind.mpr ⟨extentGetExtentsInBlock_settled _, fun child fetched => ?_⟩
          refine below ei.leafLo child (entered_eq_some.mpr ⟨?_, child, fetched⟩) fetched
          exact indexedBlock_eq_some.mpr ⟨eh, header, magic, leaf, ei, scans, rfl⟩

theorem lookup_settled (holds : HoldsEntries count node) {fuel : Nat} :
    Exec.Settled Asserted (extentGetPblock fs lblock len (fuel + 1) node) ↔
      NodeFits lblock node.length node ∧ LookupEnds fs lblock len node (fuel + 1) := by
  induction fuel generalizing count node with
  | zero =>
      rw [level_settled holds, LookupEnds, ne_eq, lookup_timeout]
      refine and_congr_right fun _ => ⟨?_, ?_⟩
      · rintro stops ⟨next, child, enters, fetched, _⟩
        exact stops next child enters fetched
      · intro stops next child enters fetched
        exact absurd ⟨next, child, enters, fetched, rfl⟩ stops
  | succ fuel ih =>
      rw [level_settled holds, LookupEnds, ne_eq, lookup_timeout]
      refine and_congr_right fun _ => ⟨?_, ?_⟩
      · rintro below ⟨next, child, enters, fetched, ends⟩
        obtain ⟨eh, _, childHolds⟩ := fetched_holds fetched
        exact ((ih childHolds).mp (below next child enters fetched)).2 ends
      · intro ends next child enters fetched
        obtain ⟨eh, _, childHolds⟩ := fetched_holds fetched
        refine (ih childHolds).mpr ⟨fetched_fits fetched, ?_⟩
        exact fun runs => ends ⟨next, child, enters, fetched, runs⟩

theorem lookup_settles (holds : HoldsEntries count node) :
    Exec.Settles Asserted (fun fuel => extentGetPblock fs lblock len fuel node) ↔
      NoBlockTwice fs lblock node ∧ NodeFits lblock node.length node := by
  constructor
  · rintro ⟨fuel, settled⟩
    cases fuel with
    | zero => cases settled
    | succ fuel =>
        obtain ⟨fits, ends⟩ := (lookup_settled holds).mp settled
        exact ⟨once_of_lookupEnds ends, fits⟩
  · rintro ⟨once, fits⟩
    have ends := @lookupEnds_of_once fs lblock len node once
    cases levels : levelBound node with
    | zero =>
        rw [levels] at ends
        exact absurd rfl ends
    | succ fuel =>
        rw [levels] at ends
        exact ⟨fuel + 1, (lookup_settled holds).mpr ⟨fits, ends⟩⟩

end

/-! ## The lookup of a directory's block -/

section
variable {fs : Fs} {inode : Inode}

theorem iBlock_settled (sized : inode.block.length = iBlockBytes) {i : Nat} (inside : i ≤ ext4TindBlock) :
    Exec.Settled Asserted (iBlock inode i) := by
  rw [iBlock, load_settled, sized]
  simp only [iBlockBytes, ext4TindBlock] at inside ⊢
  omega

theorem blockMap_settled (sized : inode.block.length = iBlockBytes) (lblock : Nat) :
    Exec.Settled Asserted (blockMapPblock fs inode lblock) := by
  have single (n index : Nat) : Exec.Settled Asserted (inodeGetDataPblockInd fs n index) :=
    Exec.settled_bind.mpr ⟨check_settled _, fun _ _ => diskReadU32_settled _ _⟩
  have double (n index : Nat) : Exec.Settled Asserted (inodeGetDataPblockDind fs n index) :=
    Exec.settled_bind.mpr ⟨check_settled _, fun _ _ =>
      Exec.settled_bind.mpr ⟨diskReadU32_settled _ _, fun _ _ => single _ _⟩⟩
  have triple (n index : Nat) : Exec.Settled Asserted (inodeGetDataPblockTind fs n index) :=
    Exec.settled_bind.mpr ⟨check_settled _, fun _ _ =>
      Exec.settled_bind.mpr ⟨diskReadU32_settled _ _, fun _ _ => double _ _⟩⟩
  refine Exec.settled_bind.mpr ⟨check_settled _, fun _ _ => ?_⟩
  split
  next direct =>
    refine iBlock_settled sized ?_
    simp only [ext4NdirBlocks, ext4TindBlock] at direct ⊢
    omega
  split
  · exact Exec.settled_bind.mpr ⟨iBlock_settled sized (by decide), fun _ _ => single _ _⟩
  split
  · exact Exec.settled_bind.mpr ⟨iBlock_settled sized (by decide), fun _ _ => double _ _⟩
  split
  · exact Exec.settled_bind.mpr ⟨iBlock_settled sized (by decide), fun _ _ => triple _ _⟩
  · rfl

theorem dataPblock_settles (sized : inode.block.length = iBlockBytes) {lblock : Nat} :
    Exec.Settles Asserted (inodeGetDataPblock fs inode lblock) ↔ LookupSound fs inode lblock := by
  have holds : HoldsEntries 4 inode.block := sized
  unfold inodeGetDataPblock LookupSound
  by_cases extents : inode.flags.testBit ext4ExtentsFlBit = true
  · simp only [extents, if_true, forall_true_left]
    rw [lookup_settles holds, sized]
  · simp only [extents, Bool.false_eq_true, if_false, false_imp_iff, iff_true]
    exact ⟨0, Exec.settled_bind.mpr ⟨blockMap_settled sized lblock, fun _ _ => trivial⟩⟩

theorem dirCtx_settles (sized : inode.block.length = iBlockBytes) {lblock : Nat} :
    Exec.Settles Asserted (dirCtxUpdate fs inode lblock) ↔ LookupSound fs inode lblock := by
  rw [← dataPblock_settles sized]
  unfold dirCtxUpdate
  refine Iff.trans (Exec.settles_bind (inodeGetDataPblock_growing fs inode lblock) ?_) ?_
  · exact fun _ => .const _
  refine and_iff_left fun _ _ => ⟨0, Exec.settled_bind.mpr ⟨diskRead_settled _ _ _, fun _ _ => trivial⟩⟩

end

end SampleFs.Proof.Fuse

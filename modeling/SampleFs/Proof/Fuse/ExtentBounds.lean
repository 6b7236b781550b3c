import SampleFs.Fuse.ExtentReads
import SampleFs.Proof.Fuse.ExtentDescent

namespace SampleFs.Proof.Fuse
open Lib SampleFs.Fuse

def iBlockBytes : Nat := 60

/-- How much of a node's memory belongs to the node. -/
def container (fs : Fs) : Option Nat → Nat
  | none => iBlockBytes
  | some _ => fs.super.blockSize

def Inside (fs : Fs) (read : NodeRead) : Prop := read.pos + read.width ≤ container fs read.block

def ReadsInside (fs : Fs) (lblock len : Nat) (root : List UInt8) : Prop :=
  ∀ levels, ∀ read ∈ (extentGetPblockReads fs lblock len levels none root).log, Inside fs read

/-! ## Where a scan stops -/

def LeafPasses (node : List UInt8) (lblock i : Nat) : Prop :=
  ∃ ee, extentAt node i = .ok ee ∧ ee.startHi = 0 ∧ ¬ (ee.block + ee.len) % 2 ^ 32 > lblock

def IndexPasses (node : List UInt8) (lblock i : Nat) : Prop :=
  ∃ ei, extentIdxAt node i = .ok ei ∧ ei.leafHi = 0 ∧ ¬ ei.block > lblock

def Passes (depth : Nat) (node : List UInt8) (lblock i : Nat) : Prop :=
  if depth = 0 then LeafPasses node lblock i else IndexPasses node lblock i

theorem passes_leaf {depth : Nat} (leaf : depth = 0) : Passes depth = LeafPasses := by
  funext node lblock i
  rw [Passes, if_pos leaf]

theorem passes_index {depth : Nat} (deep : depth ≠ 0) : Passes depth = IndexPasses := by
  funext node lblock i
  rw [Passes, if_neg deep]

def capacity (room : Nat) : Nat := (room - extentHeaderBytes) / extentBytes

/-- The node has no more entries than there is room for, or the scan stops at one of those. -/
def NodeFits (lblock room : Nat) (node : List UInt8) : Prop :=
  extentHeaderBytes ≤ room ∧ ∀ eh, extentHeader node = .ok eh → eh.magic = ext4ExtMagic →
    eh.entries ≤ capacity room ∨ ∃ i < capacity room, ¬ Passes eh.depth node lblock i

structure DescentFits (fs : Fs) (lblock : Nat) (root : List UInt8) : Prop where
  first : NodeFits lblock iBlockBytes root
  below : ∀ k block node, descent fs lblock root k = some block → extentGetExtentsInBlock fs block = .ok node →
    NodeFits lblock fs.super.blockSize node

def ScanFits (passes : Nat → Prop) (room left i : Nat) : Prop :=
  ∀ j, i ≤ j → j < i + left → (∀ e, i ≤ e → e < j → passes e) →
    extentHeaderBytes + extentBytes * j + extentBytes ≤ room

theorem scanFits_zero (passes : Nat → Prop) (room i : Nat) : ScanFits passes room 0 i := by
  intro j least most _
  omega

theorem scanFits_succ {passes : Nat → Prop} {room left i : Nat} :
    ScanFits passes room (left + 1) i ↔
      extentHeaderBytes + extentBytes * i + extentBytes ≤ room ∧ (passes i → ScanFits passes room left (i + 1)) := by
  constructor
  · intro fits
    refine ⟨fits i (Nat.le_refl _) (by omega) (by omega), ?_⟩
    intro here j least most earlier
    refine fits j (by omega) (by omega) ?_
    intro e from_ below
    by_cases same : e = i
    · exact same ▸ here
    · exact earlier e (by omega) below
  · rintro ⟨inside, later⟩ j least most earlier
    by_cases same : j = i
    · exact same ▸ inside
    · refine later (earlier i (Nat.le_refl _) (by omega)) j (by omega) (by omega) ?_
      intro e from_ below
      exact earlier e (by omega) below

theorem entry_inside {room j : Nat} (header : extentHeaderBytes ≤ room) :
    extentHeaderBytes + extentBytes * j + extentBytes ≤ room ↔ j < capacity room := by
  simp only [capacity, extentHeaderBytes, extentBytes] at header ⊢
  omega

theorem scanFits_iff {passes : Nat → Prop} {room entries : Nat} (header : extentHeaderBytes ≤ room) :
    ScanFits passes room entries 0 ↔ entries ≤ capacity room ∨ ∃ i < capacity room, ¬ passes i := by
  constructor
  · intro fits
    by_contra neither
    push Not at neither
    obtain ⟨more, all⟩ := neither
    have inside := fits (capacity room) (Nat.zero_le _) (by omega) (fun e _ below => all e below)
    rw [entry_inside header] at inside
    omega
  · intro condition j _ most earlier
    rw [entry_inside header]
    rcases condition with few | ⟨i, inside, stops⟩
    · omega
    · by_contra outside
      exact stops (earlier i (Nat.zero_le _) (by omega))

/-! ## The log of a lookup -/

section
variable {fs : Fs} {lblock len : Nat}

theorem extentScanReads_result (block : Option Nat) (node : List UInt8) (left i : Nat) :
    (extentScanReads block node lblock len left i).result = extentScan node lblock len left i := by
  induction left generalizing i with
  | zero => rfl
  | succ left ih =>
      simp only [extentScanReads, extentScan, Logged.result_bind, Logged.result_tell, Logged.result_lift, Exec.ok_bind]
      refine congrArg (Bind.bind _) (funext fun ee => congrArg (Bind.bind _) (funext fun _ => ?_))
      split
      · rfl
      · exact ih (i + 1)

theorem indexScanReads_result (block : Option Nat) (node : List UInt8) (left i : Nat) (best : Option ExtentIdx) :
    (indexScanReads block node lblock left i best).result = indexScan node lblock left i best := by
  induction left generalizing i best with
  | zero => rfl
  | succ left ih =>
      simp only [indexScanReads, indexScan, Logged.result_bind, Logged.result_tell, Logged.result_lift, Exec.ok_bind]
      refine congrArg (Bind.bind _) (funext fun ei => congrArg (Bind.bind _) (funext fun _ => ?_))
      split
      · rfl
      · exact ih (i + 1) (some ei)

theorem extentGetPblockReads_result (fuel : Nat) (block : Option Nat) (extents : List UInt8) :
    (extentGetPblockReads fs lblock len fuel block extents).result = extentGetPblock fs lblock len fuel extents := by
  induction fuel generalizing block extents with
  | zero => rfl
  | succ fuel ih =>
      simp only [extentGetPblockReads, extentGetPblock, Logged.result_bind, Logged.result_tell, Logged.result_lift,
        Exec.ok_bind]
      refine congrArg (Bind.bind _) (funext fun eh => congrArg (Bind.bind _) (funext fun _ => ?_))
      split
      · exact extentScanReads_result block extents eh.entries 0
      · rw [Logged.result_bind, indexScanReads_result]
        refine congrArg (Bind.bind _) (funext fun picked => ?_)
        cases picked with
        | none => rfl
        | some ei =>
            rw [Logged.result_bind, Logged.result_lift]
            exact congrArg (Bind.bind _) (funext fun child => ih (some ei.leafLo) child)

/-- What one round of either scan logs: its entry, and the rest if the scan passes it. -/
theorem forall_log_entry {τ ρ : Type} {good : NodeRead → Prop} {access : NodeRead} {entry : Exec Fault τ}
    {low stop : τ → Prop} [DecidablePred low] [DecidablePred stop] {found rest : τ → Logged NodeRead Fault ρ}
    (silent : ∀ e, (found e).log = []) :
    (∀ read ∈ (do
        Logged.tell access
        let e ← Logged.lift entry
        Logged.lift (Exec.check (low e) .assertFailed)
        if stop e then found e else rest e : Logged NodeRead Fault ρ).log, good read) ↔
      good access ∧ ∀ e, entry = .ok e → low e → ¬ stop e → ∀ read ∈ (rest e).log, good read := by
  simp only [Logged.forall_log_bind, Logged.log_tell, Logged.log_lift, Logged.result_tell, Logged.result_lift,
    List.forall_mem_singleton]
  refine and_congr Iff.rfl ⟨?_, ?_⟩
  · intro all e reads passes goes
    have later := ((all () trivial).2 e reads).2 () (Exec.check_pos _ passes)
    rwa [if_neg goes] at later
  · intro all _ _
    refine ⟨by simp, fun e reads => ⟨by simp, fun _ passes => ?_⟩⟩
    split
    · rw [silent e]
      simp
    next goes => exact all e reads (Exec.check_eq_ok.mp passes) goes

theorem extentScanReads_inside (block : Option Nat) (node : List UInt8) (left i : Nat) :
    (∀ read ∈ (extentScanReads block node lblock len left i).log, Inside fs read) ↔
      ScanFits (LeafPasses node lblock) (container fs block) left i := by
  induction left generalizing i with
  | zero => exact iff_of_true (by simp [extentScanReads]) (scanFits_zero _ _ _)
  | succ left ih =>
      rw [extentScanReads, forall_log_entry fun _ => rfl, scanFits_succ]
      refine and_congr Iff.rfl ⟨?_, ?_⟩
      · rintro later ⟨ee, reads, low, goes⟩
        exact (ih (i + 1)).mp (later ee reads low goes)
      · intro later ee reads low goes
        exact (ih (i + 1)).mpr (later ⟨ee, reads, low, goes⟩)

theorem indexScanReads_inside (block : Option Nat) (node : List UInt8) (left i : Nat) (best : Option ExtentIdx) :
    (∀ read ∈ (indexScanReads block node lblock left i best).log, Inside fs read) ↔
      ScanFits (IndexPasses node lblock) (container fs block) left i := by
  induction left generalizing i best with
  | zero => exact iff_of_true (by simp [indexScanReads]) (scanFits_zero _ _ _)
  | succ left ih =>
      rw [indexScanReads, forall_log_entry fun _ => rfl, scanFits_succ]
      refine and_congr Iff.rfl ⟨?_, ?_⟩
      · rintro later ⟨ei, reads, low, goes⟩
        exact (ih (i + 1) (some ei)).mp (later ei reads low goes)
      · intro later ei reads low goes
        exact (ih (i + 1) (some ei)).mpr (later ⟨ei, reads, low, goes⟩)

theorem nodeFits_iff {room : Nat} {node : List UInt8} : NodeFits lblock room node ↔
    extentHeaderBytes ≤ room ∧ ∀ eh, extentHeader node = .ok eh → eh.magic = ext4ExtMagic →
      ScanFits (Passes eh.depth node lblock) room eh.entries 0 := by
  refine and_congr_right fun header => ?_
  simp only [scanFits_iff header]

theorem reads_header {fuel : Nat} {block : Option Nat} {extents : List UInt8} :
    (∀ read ∈ (extentGetPblockReads fs lblock len (fuel + 1) block extents).log, Inside fs read) ↔
      extentHeaderBytes ≤ container fs block ∧ ∀ eh, extentHeader extents = .ok eh → eh.magic = ext4ExtMagic →
        ScanFits (Passes eh.depth extents lblock) (container fs block) eh.entries 0 ∧
          (eh.depth ≠ 0 → ∀ ei node, indexScan extents lblock eh.entries 0 none = .ok (some ei) →
            extentGetExtentsInBlock fs ei.leafLo = .ok node →
              ∀ read ∈ (extentGetPblockReads fs lblock len fuel (some ei.leafLo) node).log, Inside fs read) := by
  have first : Inside fs (headerRead block) ↔ extentHeaderBytes ≤ container fs block := by
    rw [Inside, headerRead, Nat.zero_add]
  rw [extentGetPblockReads, Logged.forall_log_bind, Logged.log_tell, List.forall_mem_singleton, first]
  refine and_congr_right fun _ => ?_
  simp only [Logged.result_tell, Logged.forall_log_bind, Logged.log_lift, Logged.result_lift, List.not_mem_nil,
    false_imp_iff, implies_true, true_and, forall_true_left]
  refine ⟨fun all eh header magic => ?_, fun all _ eh header _ passes => ?_⟩
  · have logs := all () eh header () (Exec.check_pos _ magic)
    by_cases leaf : eh.depth = 0
    · rw [if_pos leaf, extentScanReads_inside] at logs
      rw [passes_leaf leaf]
      exact ⟨logs, fun deep => absurd leaf deep⟩
    · rw [if_neg leaf, Logged.forall_log_bind, indexScanReads_inside, indexScanReads_result] at logs
      rw [passes_index leaf]
      refine ⟨logs.1, fun _ ei node scans fetched => ?_⟩
      have below := logs.2 (some ei) scans
      rw [Logged.forall_log_bind] at below
      exact below.2 node fetched
  · obtain ⟨scan, below⟩ := all eh header (Exec.check_eq_ok.mp passes)
    by_cases leaf : eh.depth = 0
    · rw [passes_leaf leaf] at scan
      rw [if_pos leaf, extentScanReads_inside]
      exact scan
    · rw [passes_index leaf] at scan
      rw [if_neg leaf, Logged.forall_log_bind, indexScanReads_inside, indexScanReads_result]
      refine ⟨scan, fun picked scans => ?_⟩
      cases picked with
      | none => simp
      | some ei =>
          rw [Logged.forall_log_bind]
          exact ⟨by simp, fun node fetched => below leaf ei node scans fetched⟩

theorem reads_level {fuel : Nat} {block : Option Nat} {extents : List UInt8} :
    (∀ read ∈ (extentGetPblockReads fs lblock len (fuel + 1) block extents).log, Inside fs read) ↔
      NodeFits lblock (container fs block) extents ∧ ∀ next node, entered fs lblock extents = some next →
        extentGetExtentsInBlock fs next = .ok node →
          ∀ read ∈ (extentGetPblockReads fs lblock len fuel (some next) node).log, Inside fs read := by
  rw [reads_header, nodeFits_iff]
  constructor
  · rintro ⟨first, all⟩
    refine ⟨⟨first, fun eh header magic => (all eh header magic).1⟩, ?_⟩
    intro next node enters fetched
    obtain ⟨eh, header, magic, deep, ei, scans, rfl⟩ := indexedBlock_eq_some.mp (entered_eq_some.mp enters).1
    exact (all eh header magic).2 deep ei node scans fetched
  · rintro ⟨⟨first, scan⟩, below⟩
    refine ⟨first, fun eh header magic => ⟨scan eh header magic, ?_⟩⟩
    intro deep ei node scans fetched
    refine below ei.leafLo node (entered_eq_some.mpr ⟨?_, node, fetched⟩) fetched
    exact indexedBlock_eq_some.mpr ⟨eh, header, magic, deep, ei, scans, rfl⟩

theorem reads_inside {fuel : Nat} {block : Option Nat} {extents : List UInt8} :
    (∀ read ∈ (extentGetPblockReads fs lblock len (fuel + 1) block extents).log, Inside fs read) ↔
      NodeFits lblock (container fs block) extents ∧ ∀ k < fuel, ∀ next node, descent fs lblock extents k = some next →
        extentGetExtentsInBlock fs next = .ok node → NodeFits lblock fs.super.blockSize node := by
  induction fuel generalizing block extents with
  | zero =>
      rw [reads_level]
      refine and_congr_right fun _ => iff_of_true ?_ (by omega)
      intro next node _ _
      simp [extentGetPblockReads]
  | succ fuel ih =>
      rw [reads_level]
      refine and_congr_right fun _ => ?_
      constructor
      · intro below k less next node visits fetched
        cases enters : entered fs lblock extents with
        | none =>
            rw [descent, enters, orbit_none] at visits
            cases visits
        | some first =>
            obtain ⟨_, child, childFetched⟩ := entered_eq_some.mp enters
            obtain ⟨here, later⟩ := ih.mp (below first child enters childFetched)
            cases k with
            | zero =>
                rw [show entered fs lblock extents = some next from visits] at enters
                cases enters
                rw [childFetched] at fetched
                cases fetched
                exact here
            | succ k =>
                rw [descent_onward enters childFetched] at visits
                exact later k (by omega) next node visits fetched
      · intro all first child enters childFetched
        refine ih.mpr ⟨all 0 (by omega) first child enters childFetched, ?_⟩
        intro k less next node visits fetched
        rw [← descent_onward enters childFetched] at visits
        exact all (k + 1) (by omega) next node visits fetched

theorem extent_reads_inside (fs : Fs) (root : List UInt8) (lblock len : Nat) :
    ReadsInside fs lblock len root ↔ DescentFits fs lblock root := by
  constructor
  · intro inside
    refine ⟨(reads_inside.mp (inside 1)).1, ?_⟩
    intro k block node visits fetched
    exact (reads_inside.mp (inside (k + 2))).2 k (by omega) block node visits fetched
  · rintro ⟨first, below⟩ levels
    cases levels with
    | zero => simp [extentGetPblockReads]
    | succ levels => exact reads_inside.mpr ⟨first, fun k _ => below k⟩

end

/-! ## A root with more entries than it has room for -/

def overfullRoot : List UInt8 := headerBytes 5 0 ++ (List.replicate 4 (extentEntry ⟨0, 1, 0, 20⟩)).flatten

theorem extent_reads_outside : overfullRoot.length = iBlockBytes ∧ ¬ ReadsInside loopFs 10 1 overfullRoot := by
  refine ⟨by decide, ?_⟩
  intro inside
  have fifth := inside 1 (entryRead none 4) (by decide +kernel)
  unfold Inside at fifth
  exact absurd fifth (by decide)

end SampleFs.Proof.Fuse

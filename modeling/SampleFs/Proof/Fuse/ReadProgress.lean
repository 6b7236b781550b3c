import SampleFs.Lib.Settles
import SampleFs.Proof.Fuse.FirstRead

namespace SampleFs.Proof.Fuse
open Lib SampleFs.Fuse

section
variable (fs : Fs) (inode : Inode) (size : Nat)

/-- The lookup of the round returns, and so does its disk read if it comes to one. -/
structure RoundReturns (s : ReadLoop) : Prop where
  lookup : ∃ found, Exec.Returns (inodeGetDataPblock fs inode s.lblock) found
  read : ∀ p len, Exec.Returns (inodeGetDataPblock fs inode s.lblock) (p, len) → p ≠ 0 →
    ∃ bytes, diskRead fs.disk (fs.super.blocks2Bytes p)
      (min (size - s.buf.length) (len * fs.super.blockSize)) = .ok bytes

/-- A round gets an extent that is not empty and stores at least one byte, and no more than are still wanted.
It never leaves: when it returns, it has looked its block up, read from there, and goes on behind both. -/
structure Progresses (s : ReadLoop) : Prop where
  extent : ∀ fuel p len, inodeGetDataPblock fs inode s.lblock fuel = .ok (p, len) → 1 ≤ len
  copies : ∀ fuel p len, inodeGetDataPblock fs inode s.lblock fuel = .ok (p, len) →
    ∃ n, 1 ≤ n ∧ n ≤ size - s.buf.length ∧ readRun fs p len (size - s.buf.length) =
      if p ≠ 0 then diskRead fs.disk (fs.super.blocks2Bytes p) n else .ok (List.replicate n 0)
  inside : ∀ fuel next, readPass fs inode size fuel s = .ok (.again next) →
    s.buf.length < next.buf.length ∧ next.buf.length ≤ size
  goes : ∀ fuel pass, readPass fs inode size fuel s = .ok pass →
    ∃ p len bytes, inodeGetDataPblock fs inode s.lblock fuel = .ok (p, len) ∧ 1 ≤ len ∧
      readRun fs p len (size - s.buf.length) = .ok bytes ∧
      1 ≤ bytes.length ∧ bytes.length ≤ size - s.buf.length ∧
      pass = .again ⟨(s.lblock + len) % 2 ^ 32, s.buf ++ bytes⟩

end

/-! ## Extents are not empty -/

section
variable {fs : Fs} {inode : Inode} {size : Nat}

theorem extentScan_pos {node : List UInt8} {lblock len p len' : Nat} (some : 1 ≤ len) {left i : Nat}
    (scans : extentScan node lblock len left i = .ok (p, len')) : 1 ≤ len' := by
  induction left generalizing i with
  | zero =>
      cases scans
      exact some
  | succ left ih =>
      obtain ⟨ee, _, rest⟩ := Exec.bind_eq_ok.mp scans
      obtain ⟨_, _, rest⟩ := Exec.bind_eq_ok.mp rest
      by_cases covers : (ee.block + ee.len) % 2 ^ 32 > lblock
      · rw [if_pos covers] at rest
        cases rest
        rw [sub32]
        omega
      · rw [if_neg covers] at rest
        exact ih rest

theorem extentGetPblock_pos {lblock len p len' : Nat} (some : 1 ≤ len) {fuel : Nat} {node : List UInt8}
    (finds : extentGetPblock fs lblock len fuel node = .ok (p, len')) : 1 ≤ len' := by
  induction fuel generalizing node with
  | zero => cases finds
  | succ fuel ih =>
      obtain ⟨eh, _, rest⟩ := Exec.bind_eq_ok.mp finds
      obtain ⟨_, _, rest⟩ := Exec.bind_eq_ok.mp rest
      by_cases leaf : eh.depth = 0
      · rw [if_pos leaf] at rest
        exact extentScan_pos some rest
      · rw [if_neg leaf] at rest
        obtain ⟨picked, _, rest⟩ := Exec.bind_eq_ok.mp rest
        cases picked with
        | none => cases rest
        | some ei =>
            obtain ⟨child, _, rest⟩ := Exec.bind_eq_ok.mp rest
            exact ih rest

theorem inodeGetDataPblock_pos {lblock fuel p len : Nat}
    (finds : inodeGetDataPblock fs inode lblock fuel = .ok (p, len)) : 1 ≤ len := by
  unfold inodeGetDataPblock at finds
  split at finds
  · exact extentGetPblock_pos (Nat.le_refl 1) finds
  · obtain ⟨pblock, _, same⟩ := Exec.bind_eq_ok.mp finds
    cases same
    exact Nat.le_refl 1

/-! ## Rounds -/

theorem readRun_copies {p len want : Nat} (positive : 0 < fs.super.blockSize) (extent : 1 ≤ len) (some : 0 < want) :
    ∃ n, 1 ≤ n ∧ n ≤ want ∧ readRun fs p len want =
      if p ≠ 0 then diskRead fs.disk (fs.super.blocks2Bytes p) n else .ok (List.replicate n 0) := by
  by_cases mapped : p ≠ 0
  · have room : 0 < len * fs.super.blockSize := Nat.mul_pos extent positive
    refine ⟨min want (len * fs.super.blockSize), by omega, Nat.min_le_left .., ?_⟩
    rw [if_pos mapped, readRun_reads positive mapped extent]
  · refine ⟨min want fs.super.blockSize, by omega, Nat.min_le_left .., ?_⟩
    rw [if_neg mapped, readRun, if_neg mapped]
    rfl

theorem readRun_length {p len want : Nat} {bytes : List UInt8} (positive : 0 < fs.super.blockSize) (extent : 1 ≤ len)
    (some : 0 < want) (runs : readRun fs p len want = .ok bytes) : 1 ≤ bytes.length ∧ bytes.length ≤ want := by
  obtain ⟨n, least, most, copies⟩ := @readRun_copies fs p len want positive extent some
  have length : bytes.length = n := by
    rw [copies] at runs
    split at runs
    · exact length_diskRead runs
    · cases runs
      exact List.length_replicate ..
  omega

theorem readPass_goes (positive : 0 < fs.super.blockSize) {s : ReadLoop} (more : s.buf.length < size) {fuel : Nat}
    {pass : Pass ReadLoop (List UInt8)} (passes : readPass fs inode size fuel s = .ok pass) :
    ∃ p len bytes, inodeGetDataPblock fs inode s.lblock fuel = .ok (p, len) ∧ 1 ≤ len ∧
      readRun fs p len (size - s.buf.length) = .ok bytes ∧
      1 ≤ bytes.length ∧ bytes.length ≤ size - s.buf.length ∧
      pass = .again ⟨(s.lblock + len) % 2 ^ 32, s.buf ++ bytes⟩ := by
  simp only [readPass, if_pos more] at passes
  obtain ⟨⟨p, len⟩, finds, rest⟩ := Exec.bind_eq_ok.mp passes
  obtain ⟨bytes, runs, same⟩ := Exec.bind_eq_ok.mp rest
  cases same
  have extent := inodeGetDataPblock_pos finds
  obtain ⟨least, most⟩ := readRun_length positive extent (by omega) runs
  exact ⟨p, len, bytes, finds, extent, runs, least, most, rfl⟩

theorem progresses (positive : 0 < fs.super.blockSize) {s : ReadLoop} (more : s.buf.length < size) :
    Progresses fs inode size s where
  extent := fun _ _ _ finds => inodeGetDataPblock_pos finds
  copies := fun _ _ _ finds => readRun_copies positive (inodeGetDataPblock_pos finds) (by omega)
  inside := by
    intro fuel next passes
    obtain ⟨p, len, bytes, _, _, _, least, most, same⟩ := readPass_goes positive more passes
    cases same
    simp only [List.length_append]
    omega
  goes := fun _ _ passes => readPass_goes positive more passes

theorem RoundReturns.again (positive : 0 < fs.super.blockSize) {s : ReadLoop} (more : s.buf.length < size)
    (returns : RoundReturns fs inode size s) :
    ∃ next, Exec.Returns (fun fuel => readPass fs inode size fuel s) (.again next) := by
  obtain ⟨⟨⟨p, len⟩, fuel, finds⟩, reads⟩ := returns
  have extent := inodeGetDataPblock_pos finds
  have run : ∃ bytes, readRun fs p len (size - s.buf.length) = .ok bytes := by
    by_cases mapped : p ≠ 0
    · rw [readRun_reads positive mapped extent]
      exact reads p len ⟨fuel, finds⟩ mapped
    · rw [readRun, if_neg mapped]
      exact ⟨_, rfl⟩
  obtain ⟨bytes, runs⟩ := run
  refine ⟨{ lblock := (s.lblock + len) % 2 ^ 32, buf := s.buf ++ bytes }, fuel, ?_⟩
  simp only [readPass, if_pos more, finds, Exec.ok_bind, runs]
  rfl

/-! ## Runs of the loop -/

theorem comes_most (positive : 0 < fs.super.blockSize) {s t : ReadLoop} (comes : Exec.Comes (readPass fs inode size) s t)
    (most : s.buf.length ≤ size) : t.buf.length ≤ size := by
  induction comes with
  | here => exact most
  | @again s next t goes _ ih =>
      obtain ⟨fuel, passes⟩ := goes
      apply ih
      by_cases more : s.buf.length < size
      · exact ((@progresses fs inode size positive s more).inside fuel next passes).2
      · simp only [readPass, if_neg more] at passes
        cases passes

theorem read_progress (blocks : fs.super.logBlockSize ≤ 6) {start : ReadLoop} (most : start.buf.length ≤ size) :
    (∀ s, Exec.Comes (readPass fs inode size) start s →
        s.buf.length ≤ size ∧ (s.buf.length < size → Progresses fs inode size s)) ∧
      ((∀ s, Exec.Comes (readPass fs inode size) start s → s.buf.length < size → RoundReturns fs inode size s) →
        ∃ buf, Exec.Returns (fun fuel => Exec.loop (readPass fs inode size fuel) fuel start) buf ∧ buf.length = size) := by
  obtain ⟨_, positive, _⟩ := blockSize_pow blocks
  constructor
  · intro s comes
    exact ⟨comes_most positive comes most, progresses positive⟩
  · intro returns
    apply Exec.loop_ends (readPass_growing fs inode size)
    intro s comes
    by_cases more : s.buf.length < size
    · obtain ⟨next, fuel, passes⟩ := (returns s comes more).again positive more
      have inside := (@progresses fs inode size positive s more).inside fuel next passes
      refine ⟨.again next, ⟨fuel, passes⟩, ?_⟩
      show size - next.buf.length < size - s.buf.length
      omega
    · refine ⟨.done s.buf, ⟨0, ?_⟩, Nat.le_antisymm (comes_most positive comes most) (Nat.not_lt.mp more)⟩
      simp only [readPass, if_neg more]
      rfl

end

/-! ## A mapped block and two holes -/

def headFs : Fs := ⟨sparseDisk, smallSuper, []⟩

theorem headInode_lookup (lblock : Nat) : inodeGetDataPblock headFs headInode lblock 1 =
    if 1 > lblock then .ok ((20 + sub32 lblock 0) % 2 ^ 32, sub32 1 lblock) else .ok (0, 1) := rfl

theorem headInode_found (lblock : Nat) : Exec.Returns (inodeGetDataPblock headFs headInode lblock) (20, 1) ∨
    Exec.Returns (inodeGetDataPblock headFs headInode lblock) (0, 1) := by
  by_cases first : lblock = 0
  · subst first
    exact .inl ⟨1, by decide +kernel⟩
  · exact .inr ⟨1, by rw [headInode_lookup, if_neg (by omega)]⟩

theorem headFs_round (s : ReadLoop) : RoundReturns headFs headInode 3000 s where
  lookup := (headInode_found s.lblock).elim (fun found => ⟨_, found⟩) fun found => ⟨_, found⟩
  read := by
    intro p len returns mapped
    have grows := inodeGetDataPblock_growing headFs headInode s.lblock
    rcases headInode_found s.lblock with found | found
    · cases Exec.Returns.unique grows returns found
      have room : headFs.disk.size = 65536 ∧ headFs.super.blockSize = 1024 := ⟨rfl, rfl⟩
      have short : min (3000 - s.buf.length) (1 * headFs.super.blockSize) ≤ 1024 := by omega
      exact ⟨_, diskRead_ok (short.trans (by decide)) (by rw [Super.blocks2Bytes]; omega)⟩
    · cases Exec.Returns.unique grows returns found
      exact absurd rfl mapped

theorem read_progress_sparse : Progresses headFs headInode 3000 ⟨0, []⟩ ∧
    ∃ buf, Exec.Returns (fun fuel => Exec.loop (readPass headFs headInode 3000 fuel) fuel ⟨0, []⟩) buf ∧
      buf.length = 3000 := by
  have both := @read_progress headFs headInode 3000 (by decide) ⟨0, []⟩ (by decide)
  refine ⟨(both.1 ⟨0, []⟩ (.here _)).2 (by decide), both.2 ?_⟩
  intro s _ _
  exact headFs_round s

end SampleFs.Proof.Fuse

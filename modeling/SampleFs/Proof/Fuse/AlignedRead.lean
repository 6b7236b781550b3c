import SampleFs.Fuse.PreadWrapper
import SampleFs.Proof.Fuse.ReadFile

namespace SampleFs.Proof.Fuse
open Lib SampleFs.Fuse

theorem toInt_small {n : Nat} (small : n < 2 ^ 31) : toInt n = n := by
  rw [toInt, toUnsigned_natCast (by omega), toSigned_small small]

theorem addSize_small {m n : Nat} (small : m + n < 2 ^ 31) : addSize m n = (m + n : Nat) := by
  rw [addSize, toUnsigned_natCast (by omega), toSigned_small small]

theorem Disk.length_bytes (disk : Disk) (start size : Nat) : (disk.bytes start size).length = size := by
  simp [Disk.bytes]

theorem Disk.bytes_append (disk : Disk) (start m n : Nat) :
    disk.bytes start (m + n) = disk.bytes start m ++ disk.bytes (start + m) n := by
  simp [Disk.bytes, List.range_add, Nat.add_assoc]

theorem Disk.bytes_slice (disk : Disk) {start size skip count : Nat} (inside : skip + count ≤ size) :
    ((disk.bytes start size).drop skip).take count = disk.bytes (start + skip) count := by
  obtain ⟨rest, rfl⟩ := Nat.exists_eq_add_of_le inside
  rw [bytes_append, bytes_append, List.append_assoc, List.drop_left' (length_bytes ..),
    List.take_left' (length_bytes ..)]

theorem pread_inside {disk : Disk} {start size : Nat} (inside : start + size ≤ disk.size) :
    pread disk size start = ((size : Int), disk.bytes start size) := by
  rw [pread, Nat.min_eq_left (by omega)]

section
variable {device : RawDevice} {start size : Nat}

theorem rawPread_aligned (position : start % preadBlockSize = 0) (blocks : size % preadBlockSize = 0)
    (inside : start + size ≤ device.disk.size) :
    rawPread device size start = ((size : Int), device.disk.bytes start size) := by
  rw [rawPread, if_pos ⟨position, blocks⟩, pread_inside inside]

/-- The device has no partial block, so a block that begins on it is on it. -/
theorem block_inside (position : start % preadBlockSize = 0) (inside : start < device.disk.size) :
    start + preadBlockSize ≤ device.disk.size := by
  have whole := device.whole
  simp only [preadBlockSize] at position whole ⊢
  omega

theorem preadBlock_eq (position : start % preadBlockSize = 0) (inside : start < device.disk.size) :
    preadBlock device start = .ok (device.disk.bytes start preadBlockSize) := by
  rw [preadBlock, rawPread_aligned position (Nat.mod_self _) (block_inside position inside)]
  simp only [toInt_small (show preadBlockSize < 2 ^ 31 by decide), Exec.check_pos, Exec.ok_bind]
  rfl

/-! ## The three parts of a read -/

/-- The bytes stored so far are the first of those asked for, and the counters agree with them. -/
structure Transferred (device : RawDevice) (start size : Nat) (s : Reading) : Prop where
  bytes : s.p = device.disk.bytes start s.p.length
  left : s.p.length + s.size = size
  position : s.start = start + s.p.length
  count : s.ret = s.p.length

theorem Transferred.advance {s : Reading} (transferred : Transferred device start size s) (small : size < 2 ^ 31)
    {n : Nat} (le : n ≤ s.size) : Transferred device start size (s.advance (device.disk.bytes s.start n) n) := by
  have left := transferred.left
  have position := transferred.position
  have longer : (s.advance (device.disk.bytes s.start n) n).p.length = s.p.length + n := by
    rw [Reading.advance, List.length_append, Disk.length_bytes]
  constructor
  · rw [longer, Disk.bytes_append, ← transferred.bytes, ← position]
    rfl
  · rw [longer]
    simp only [Reading.advance]
    omega
  · rw [longer]
    simp only [Reading.advance]
    omega
  · rw [longer]
    simp only [Reading.advance, transferred.count]
    exact addSize_small (by omega)

theorem Transferred.result {s : Reading} (transferred : Transferred device start size s) (all : s.size = 0) :
    (s.ret, s.p) = ((size : Int), device.disk.bytes start size) := by
  have full : s.p.length = size := by
    have left := transferred.left
    omega
  rw [transferred.count, transferred.bytes, Disk.length_bytes, full]

/-- After a part either everything has been read, or something is left and the rest is as before. -/
def PartDone (device : RawDevice) (start size : Nat) (rest : Reading → Prop) :
    Pass Reading (Int × List UInt8) → Prop
  | .done result => result = ((size : Int), device.disk.bytes start size)
  | .again s => Transferred device start size s ∧ 0 < s.size ∧ rest s

theorem partDone_of_advance {s : Reading} {rest : Reading → Prop} (transferred : Transferred device start size s)
    (further : 0 < s.size → rest s) :
    PartDone device start size rest (if s.size = 0 then .done (s.ret, s.p) else .again s) := by
  by_cases all : s.size = 0
  · rw [if_pos all]
    exact transferred.result all
  · rw [if_neg all]
    exact ⟨transferred, Nat.pos_of_ne_zero all, further (Nat.pos_of_ne_zero all)⟩

theorem preadFirst_spec {s : Reading} (transferred : Transferred device start size s) (some : 0 < s.size)
    (small : size < 2 ^ 31) (inside : start + size ≤ device.disk.size) :
    ∃ pass, preadFirst device s = .ok pass ∧
      PartDone device start size (fun s => s.start % preadBlockSize = 0) pass := by
  have left := transferred.left
  have position := transferred.position
  by_cases aligned : s.start % preadBlockSize = 0
  · exact ⟨.again s, by rw [preadFirst, if_pos aligned]; rfl, transferred, some, aligned⟩
  · have below : s.start % preadBlockSize ≤ s.start := Nat.mod_le ..
    have less : s.start % preadBlockSize < preadBlockSize := Nat.mod_lt _ (by decide)
    have whole : (s.start - s.start % preadBlockSize) % preadBlockSize = 0 := by
      simp only [preadBlockSize]
      omega
    have block := @preadBlock_eq device _ whole (by omega)
    have slice := @Disk.bytes_slice device.disk (s.start - s.start % preadBlockSize) _ _ _
      (show s.start % preadBlockSize + min s.size (preadBlockSize - s.start % preadBlockSize) ≤ preadBlockSize by omega)
    rw [Nat.sub_add_cancel below] at slice
    simp only [preadFirst, if_neg aligned, block, Exec.ok_bind, slice]
    refine ⟨_, rfl, partDone_of_advance (transferred.advance small (Nat.min_le_left ..)) ?_⟩
    intro more
    simp only [Reading.advance, preadBlockSize] at more ⊢
    omega

theorem preadMid_spec {s : Reading} (transferred : Transferred device start size s) (some : 0 < s.size)
    (aligned : s.start % preadBlockSize = 0) (small : size < 2 ^ 31) (inside : start + size ≤ device.disk.size) :
    ∃ pass, preadMid device s = .ok pass ∧ PartDone device start size
      (fun s => s.start % preadBlockSize = 0 ∧ s.size < preadBlockSize) pass := by
  have left := transferred.left
  have position := transferred.position
  have split := Nat.div_add_mod' s.size preadBlockSize
  have remainder : s.size % preadBlockSize < preadBlockSize := Nat.mod_lt _ (by decide)
  rw [preadMid, Exec.check_pos _ aligned, Exec.ok_bind]
  by_cases none : s.size / preadBlockSize * preadBlockSize = 0
  · refine ⟨.again s, by simp only [if_pos none]; rfl, transferred, some, aligned, ?_⟩
    omega
  · have blocks : s.size / preadBlockSize * preadBlockSize % preadBlockSize = 0 := Nat.mul_mod_left ..
    have count : toUnsigned 64 ((s.size / preadBlockSize * preadBlockSize : Nat) : Int) =
        s.size / preadBlockSize * preadBlockSize := toUnsigned_natCast (by omega)
    simp only [if_neg none, rawPread_aligned aligned blocks (show _ ≤ device.disk.size by omega),
      toInt_small (show s.size / preadBlockSize * preadBlockSize < 2 ^ 31 by omega), Exec.check_pos _ count,
      Exec.ok_bind]
    refine ⟨_, rfl, partDone_of_advance (transferred.advance small (by omega)) ?_⟩
    intro _
    simp only [Reading.advance]
    refine ⟨?_, by omega⟩
    rw [Nat.add_mod, aligned, blocks]
    rfl

theorem preadLast_spec {s : Reading} (transferred : Transferred device start size s) (some : 0 < s.size)
    (aligned : s.start % preadBlockSize = 0) (short : s.size < preadBlockSize) (small : size < 2 ^ 31)
    (inside : start + size ≤ device.disk.size) :
    preadLast device s = .ok ((size : Int), device.disk.bytes start size) := by
  have left := transferred.left
  have position := transferred.position
  have slice := @Disk.bytes_slice device.disk s.start _ _ _ (show 0 + s.size ≤ preadBlockSize by omega)
  rw [List.drop_zero, Nat.add_zero] at slice
  have all := (transferred.advance small (Nat.le_refl _)).result (Nat.sub_self _)
  rw [preadLast, Exec.check_pos _ short, Exec.ok_bind, preadBlock_eq aligned (by omega), Exec.ok_bind, slice]
  exact congrArg Exec.ok all

end

theorem pread_wrapper_exact (device : RawDevice) {start size : Nat} (some : 0 < size) (small : size < 2 ^ 31)
    (inside : start + size ≤ device.disk.size) :
    preadWrapper device size start = .ok ((size : Int), device.disk.bytes start size) ∧
      pread device.disk size start = ((size : Int), device.disk.bytes start size) ∧
      rawDiskRead device start size = plainDiskRead device.disk start size ∧
      (size ≤ preadMax → rawDiskRead device start size = diskRead device.disk start size) := by
  have initial : Transferred device start size { p := [], size, start, ret := 0 } :=
    ⟨rfl, Nat.zero_add _, rfl, rfl⟩
  have wrapper : preadWrapper device size start = .ok ((size : Int), device.disk.bytes start size) := by
    obtain ⟨first, reads, part⟩ := preadFirst_spec initial some small inside
    rw [preadWrapper, reads, Exec.ok_bind]
    cases first with
    | done result => exact congrArg Exec.ok part
    | again s =>
        obtain ⟨transferred, left, aligned⟩ := part
        obtain ⟨mid, reads, part⟩ := preadMid_spec transferred left aligned small inside
        simp only [reads, Exec.ok_bind]
        cases mid with
        | done result => exact congrArg Exec.ok part
        | again s =>
            obtain ⟨transferred, left, aligned, short⟩ := part
            exact preadLast_spec transferred left aligned short small inside
  have word : toUnsigned 64 (size : Int) = size := toUnsigned_natCast (by omega)
  have raw : rawDiskRead device start size = .ok (device.disk.bytes start size) := by
    rw [rawDiskRead, wrapper, Exec.ok_bind]
    simp only [word, Exec.check_pos, Exec.ok_bind]
    rfl
  refine ⟨wrapper, pread_inside inside, ?_, ?_⟩
  · rw [raw, plainDiskRead, pread_inside inside]
    simp only [toInt_small small, word, Exec.check_pos, Exec.ok_bind]
    rfl
  · intro short
    rw [raw, diskRead_ok short inside]

def countingDevice : RawDevice := ⟨⟨4096, UInt8.ofNat, by decide⟩, by decide⟩

/-- A read with 24 bytes before the first boundary, two whole blocks, and 28 bytes of a third. -/
theorem pread_wrapper_three_parts :
    preadWrapper countingDevice 2100 1000 = .ok (2100, countingDevice.disk.bytes 1000 2100) :=
  (pread_wrapper_exact countingDevice (by decide) (by decide) (by decide)).1

end SampleFs.Proof.Fuse

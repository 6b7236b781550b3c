import SampleFs.Proof.Chunk.Transfers

namespace SampleFs.Proof.Chunk
open Lib Chunkserver

/-- The batch is not empty and neither longer than `CHUNK_OP_LEN` nor than what is left, so that both
loops stay inside a buffer of `len` bytes. -/
structure BatchMeets (len total : Nat) : Prop where
  some : 1 ≤ batchSize len total
  most : batchSize len total ≤ chunkOpLen
  left : batchSize len total ≤ len - total
  writes : ∀ (φ : Type) (os : Syscalls φ) (buf : List UInt8) (fd : φ), buf.length = len →
    ∃ pass, writePass os buf len ⟨total, fd⟩ = .ok pass
  reads : ∀ (φ : Type) (os : Syscalls φ) (buf : List UInt8) (fd : φ), buf.length = len →
    ∃ pass, readPass os len ⟨total, buf, fd⟩ = .ok pass

/-- What is left fits in an `int` and is not zero there. -/
def Narrows (len total : Nat) : Prop := 0 < (len - total) % 2 ^ 32 ∧ (len - total) % 2 ^ 32 < 2 ^ 31

section
variable {φ : Type} {os : Syscalls φ} {buf : List UInt8} {len total : Nat} {fd : φ}

theorem writePass_inside (more : total < len) (inside : total + batchSize len total ≤ buf.length) :
    ∃ pass, writePass os buf len ⟨total, fd⟩ = .ok pass := by
  simp only [writePass, if_pos more, Exec.check_pos Fault.outOfBounds inside]
  exact ⟨_, rfl⟩

theorem readPass_inside (more : total < len) (inside : total + batchSize len total ≤ buf.length) :
    ∃ pass, readPass os len ⟨total, buf, fd⟩ = .ok pass := by
  simp only [readPass, if_pos more, Exec.check_pos Fault.outOfBounds inside]
  exact ⟨_, rfl⟩

end

theorem batch_size {len total : Nat} (more : total < len) (word : len < 2 ^ 64) :
    BatchMeets len total ↔ Narrows len total := by
  constructor
  · intro meets
    by_cases small : (len - total) % 2 ^ 32 < 2 ^ 31
    · have batch := batchSize_low more.le word small
      have some := meets.some
      exact ⟨by omega, small⟩
    · have huge := batchSize_high more.le word (Nat.not_lt.mp small)
      have most := meets.most
      rw [chunkOpLen] at most
      omega
  · rintro ⟨some, small⟩
    have batch := batchSize_low more.le word small
    have least : 1 ≤ batchSize len total := by
      rw [batch, chunkOpLen]
      omega
    have left : batchSize len total ≤ len - total := by
      rw [batch]
      exact (Nat.min_le_left ..).trans (Nat.mod_le ..)
    refine ⟨least, ?_, left, ?_, ?_⟩
    · rw [batch]
      exact Nat.min_le_right ..
    · intro φ os buf fd sized
      exact writePass_inside more (by omega)
    · intro φ os buf fd sized
      exact readPass_inside more (by omega)

theorem batch_size_last : BatchMeets 100000 65535 :=
  (batch_size (by decide) (by decide)).mpr ⟨by decide, by decide⟩

/-- 2 GiB are a negative `int`, and 4 GiB are none at all. -/
theorem batch_size_narrowed : batchSize (2 ^ 31) 0 = 2 ^ 64 - 2 ^ 31 ∧ ¬ BatchMeets (2 ^ 31) 0 ∧
    batchSize (2 ^ 32) 0 = 0 ∧ ¬ BatchMeets (2 ^ 32) 0 := by
  have negative : batchSize (2 ^ 31) 0 = 2 ^ 64 - 2 ^ 31 := by decide
  have none : batchSize (2 ^ 32) 0 = 0 := by decide
  refine ⟨negative, ?_, none, ?_⟩
  · intro meets
    exact absurd (negative ▸ meets.left) (by decide)
  · intro meets
    exact absurd (none ▸ meets.some) (by decide)

end SampleFs.Proof.Chunk

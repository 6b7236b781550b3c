import SampleFs.Lib.TransferLoop
import SampleFs.Proof.Chunk.RandomAccess

/-!
# What the transfer loops ask for

The batches of `chunk_write` and `chunk_read`, whose sizes pass through an `int`. Below half of its
range the length modulo 2^32 is what they work through; above, the first batch is beyond any buffer.
-/

namespace SampleFs.Proof.Chunk
open Lib Chunkserver

theorem batchSize_mod {len total : Nat} (word : len < 2 ^ 64) (small : len % 2 ^ 32 < 2 ^ 31)
    (le : total ≤ len % 2 ^ 32) : batchSize len total = min (len % 2 ^ 32 - total) chunkOpLen := by
  have rest : (len - total) % 2 ^ 32 = len % 2 ^ 32 - total := by omega
  rw [batchSize_low (by omega) word (by omega), rest]

def scripted (c : ChunkFile) : Chunkserver.Chunk ScriptedFile :=
  { chunkId := c.chunkId, offset := c.offset, fd := { file := c.fd, calls := 0 } }

def request (results : Nat → Int) (len i : Nat) : Nat := batchSize len (balance results i).toNat

theorem total_next {total : Nat} {result : Int} (nonneg : 0 ≤ result)
    (word : total + result.toNat < 2 ^ 64) :
    toUnsigned 64 (total + result) = total + result.toNat := by
  have split : result = (result.toNat : Int) := by omega
  rw [split, toUnsigned_add word, Int.toNat_natCast]

section Requests
variable {results : Nat → Int} {len : Nat} (word : len < 2 ^ 63) (small : len % 2 ^ 32 < 2 ^ 31)
include word small

theorem request_eq {i : Nat} (reached : Reached results len i)
    (le : balance results i ≤ (len % 2 ^ 32 : Nat)) :
    (request results len i : Int) = min ((len % 2 ^ 32 : Nat) - balance results i) chunkOpLen := by
  have nonneg := (reached i (Nat.le_refl i)).1
  rw [request, batchSize_mod (by omega) small (by omega)]
  omega

theorem request_within {i : Nat} (reached : Reached results len i)
    (le : balance results i ≤ (len % 2 ^ 32 : Nat)) :
    balance results i + request results len i ≤ (len % 2 ^ 32 : Nat) := by
  rw [request_eq word small reached le]
  omega

theorem request_asked {total i : Nat} (reached : Reached results len i)
    (le : balance results i ≤ (len % 2 ^ 32 : Nat)) (stands : (total : Int) = balance results i) :
    total < len ∧ batchSize len total = request results len i ∧
      total + request results len i ≤ len := by
  have below := (reached i (Nat.le_refl i)).2
  have within := request_within word small reached le
  refine ⟨by omega, ?_, by omega⟩
  rw [request, ← stands, Int.toNat_natCast]

theorem balance_le_mod {limit : Nat → Nat}
    (answers : ∀ i, Reached results len i → Answers (limit i) (results i))
    (asked : ∀ i, limit i ≤ request results len i) {i : Nat}
    (before : ∀ j < i, Reached results len j) : balance results i ≤ (len % 2 ^ 32 : Nat) := by
  refine (balance_le answers ?_ before).2
  intro i reached le
  have inside := request_within word small reached le
  have least := asked i
  omega

omit small in
theorem balance_fills (whole : len < 2 ^ 31) {limit : Nat → Nat}
    (answers : ∀ i, Reached results len i → Answers (limit i) (results i))
    (asked : ∀ i, limit i ≤ request results len i)
    (works : ∀ i, Reached results len i → results i ≠ -1)
    (room : ∀ i, Reached results len i → 0 < request results len i → 0 < limit i) :
    ∃ m, balance results m = len ∧ ∀ j < m, Reached results len j := by
  have same : len % 2 ^ 32 = len := Nat.mod_eq_of_lt (by omega)
  refine balance_completes answers ?_ same works ?_
  · intro i reached le
    have inside := request_within word (by omega) reached le
    have least := asked i
    omega
  · intro i reached
    apply room i reached
    have less := (reached i (Nat.le_refl i)).2
    have size := request_eq word (by omega) reached (by omega)
    rw [chunkOpLen] at size
    omega

end Requests

end SampleFs.Proof.Chunk

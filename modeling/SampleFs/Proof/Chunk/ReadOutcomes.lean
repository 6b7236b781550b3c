import SampleFs.Proof.Chunk.Transfers

/-!
# Reading under short counts, the end of the file and errors
-/

namespace SampleFs.Proof.Chunk
open Lib Chunkserver

def startOf (c : ChunkFile) (pos : Nat) : Nat := (c.fd.lseekCur (toSigned 64 pos)).offset

def available (c : ChunkFile) (pos : Nat) : Nat := c.fd.content.length - startOf c pos

section Reading
variable {results : Nat → Int} {c : ChunkFile} {buf : List UInt8} {pos len : Nat}

variable (results c buf pos) in
structure Reading (s : ReadState ScriptedFile) : Prop where
  content : s.fd.file.content = c.fd.content
  length : s.buf.length = buf.length
  offset : s.fd.file.offset = startOf c pos + delivered results s.fd.calls
  inside : delivered results s.fd.calls ≤ available c pos
  bytes : (∀ j < s.fd.calls, results j ≠ -1) →
    s.buf = (c.fd.content.drop (startOf c pos)).take s.total ++ buf.drop s.total

theorem store_length {buf bytes : List UInt8} {total : Nat} (room : total + bytes.length ≤ buf.length) :
    (store buf total bytes).length = buf.length := by
  simp only [store, List.length_append, List.length_take, List.length_drop]
  omega

theorem read_transfer
    (answers : ∀ i, Reached results len i →
      Answers (min (request results len i) (available c pos - delivered results i)) (results i))
    (fits : len ≤ buf.length) (word : buf.length < 2 ^ 63) (small : len % 2 ^ 32 < 2 ^ 31) :
    Transfer (readPass (ScriptedFile.syscalls results) len) results len ReadState.total
      (fun s => s.fd.calls) (fun s => ((toSigned 64 s.total, s.buf), s.fd))
      (Reading results c buf pos) := by
  have atMost : ∀ i, (∀ j < i, Reached results len j) →
      balance results i ≤ (len % 2 ^ 32 : Nat) := fun i before =>
    balance_le_mod (by omega) small answers (fun _ => Nat.min_le_left _ _) before
  constructor
  · rintro ⟨total, filled, fd⟩ holds reached stands
    simp only at reached stands
    obtain ⟨more, batch, asked⟩ := request_asked (by omega) small reached
      (atMost _ fun j less => reached.of_le (Nat.le_of_lt less)) stands
    have room : total + request results len fd.calls ≤ buf.length := by omega
    have moved := (answers _ reached).toNat_le
    have length : ((fd.file.content.drop fd.file.offset).take (results fd.calls).toNat).length =
        (results fd.calls).toNat := by
      have content := holds.content
      have offset := holds.offset
      simp only at content offset
      rw [available] at moved
      rw [List.length_take, List.length_drop, content, offset]
      omega
    refine ⟨⟨toUnsigned 64 (total + results fd.calls),
      store filled total ((fd.file.content.drop fd.file.offset).take (results fd.calls).toNat),
      ((ScriptedFile.syscalls results).read fd (request results len fd.calls)).2⟩, ?_, ?_, rfl, ?_⟩
    · simp only [readPass, more, if_true, batch]
      rw [Exec.check_pos _ (by rw [holds.length]; exact room)]
      rfl
    · rw [balance, ← stands]
    · have inside := holds.inside
      simp only at inside
      refine ⟨holds.content, ?_, ?_, ?_, ?_⟩
      · simp only
        rw [store_length, holds.length]
        rw [length, holds.length]
        omega
      · simp only [ScriptedFile.syscalls, ScriptedFile.read, OpenFile.read, length, delivered]
        rw [holds.offset, Nat.add_assoc]
      · simp only [ScriptedFile.syscalls, ScriptedFile.read, delivered]
        omega
      · intro works
        have here := (answers _ reached).nonneg (works _ (Nat.lt_succ_self _))
        have works : ∀ j < fd.calls, results j ≠ -1 := fun j less => works j (Nat.lt_succ_of_lt less)
        have before := holds.bytes works
        have same := (delivered_eq_balance fun j less =>
          (answers j (reached.of_le (Nat.le_of_lt less))).bounds.1).2.mpr works
        have sum := @total_next total _ here (by omega)
        have offset := holds.offset
        simp only at before offset
        have start : fd.file.offset = startOf c pos + total := by omega
        simp only [sum]
        rw [before, holds.content, start, ← List.drop_drop]
        apply store_next
        rw [List.length_drop]
        rw [available] at moved inside
        omega
  · intro s beyond
    simp only [readPass, Nat.not_lt.mpr beyond, if_false]
    rfl
  · intro i reached
    exact (answers i reached).bounds.1
  · intro i before
    have := atMost i before
    omega
  · omega

theorem chunkRead_returns {result : Int} {filled : List UInt8} {c' : Chunkserver.Chunk ScriptedFile} :
    Exec.Returns (chunkRead (ScriptedFile.syscalls results) (scripted c) buf pos len)
      ((result, filled), c') ↔ ∃ fd, c' = { scripted c with fd } ∧
        Exec.Returns (fun n => Exec.loop (readPass (ScriptedFile.syscalls results) len) n
          ⟨0, buf, (scripted c).fd.lseek (toSigned 64 pos)⟩) ((result, filled), fd) := by
  constructor
  · rintro ⟨fuel, runs⟩
    obtain ⟨⟨leaves, fd⟩, loops, rest⟩ := Exec.bind_eq_ok.mp runs
    cases rest
    exact ⟨fd, rfl, fuel, loops⟩
  · rintro ⟨fd, rfl, fuel, loops⟩
    exact ⟨fuel, Exec.bind_eq_ok.mpr ⟨_, loops, rfl⟩⟩

variable (results c buf pos) in
/-- The bytes there are, up to `len` of them, or -1 when a call failed. -/
def ReadsAvailable (len : Nat) : Prop :=
  ∃ result filled c', Exec.Returns
      (chunkRead (ScriptedFile.syscalls results) (scripted c) buf pos len) ((result, filled), c') ∧
    ((∀ i < c'.fd.calls, results i ≠ -1) → result = min len (available c pos) ∧
      filled.take (min len (available c pos)) =
        (c.fd.content.drop (startOf c pos)).take (min len (available c pos))) ∧
    ((∃ i < c'.fd.calls, results i = -1) → result = -1)

theorem reading_starts :
    Reading results c buf pos ⟨0, buf, (scripted c).fd.lseek (toSigned 64 pos)⟩ :=
  ⟨by simp [ScriptedFile.lseek, scripted], rfl, rfl, Nat.zero_le _, by simp⟩

theorem readPass_huge {fd : ScriptedFile} (fits : len ≤ buf.length) (word : buf.length < 2 ^ 63)
    (large : 2 ^ 31 ≤ len % 2 ^ 32) :
    readPass (ScriptedFile.syscalls results) len ⟨0, buf, fd⟩ = .fail .outOfBounds := by
  have huge := batchSize_high (Nat.zero_le len) (by omega) large
  have some : 0 < len := by omega
  simp only [readPass, some, if_true]
  rw [Exec.check_neg _ (by omega)]
  rfl

section Outcome
variable (fits : len ≤ buf.length) (word : buf.length < 2 ^ 63)
  (answers : ∀ i, Reached results len i →
    Answers (min (request results len i) (available c pos - delivered results i)) (results i))
include fits word answers

theorem readsAvailable_only (meets : ReadsAvailable results c buf pos len) :
    (len % 2 ^ 32 < 2 ^ 31 ∧
        ∃ n, Reached results len n ∧ balance results n = 0 ∧ results n = -1) ∨
      (len < 2 ^ 31 ∧ len ≤ available c pos ∧ ∀ i, Reached results len i → results i ≠ -1) := by
  obtain ⟨result, filled, c', returns, whole, broken⟩ := meets
  obtain ⟨fd, rfl, fuel, loops⟩ := chunkRead_returns.mp returns
  have small : len % 2 ^ 32 < 2 ^ 31 := by
    by_contra large
    exact Exec.loop_fails (readPass_huge fits word (Nat.le_of_not_lt large)) _ _ loops
  have transfer := read_transfer answers fits word small
  obtain ⟨s, leaves, holds, done | wrapped⟩ := transfer.only reading_starts rfl rfl loops
  · obtain ⟨before, full, total⟩ := done
    simp only at before full
    cases leaves
    rw [total, toSigned_small (by omega)] at broken
    have le := balance_le_mod (by omega) small answers (fun _ => Nat.min_le_left _ _) before
    have works : ∀ i < s.fd.calls, results i ≠ -1 := by
      intro i less failed
      have minus := broken ⟨i, less, failed⟩
      omega
    have same := (delivered_eq_balance fun j less =>
      (answers j (before j less)).bounds.1).2.mpr works
    have inside := holds.inside
    refine .inr ⟨by omega, by omega, ?_⟩
    intro i reached
    exact works i (reached.lt full)
  · obtain ⟨n, _, reached, zero, failed, _⟩ := wrapped
    exact .inl ⟨small, n, reached, zero, failed⟩

theorem readsAvailable_failed {n : Nat} (small : len % 2 ^ 32 < 2 ^ 31)
    (reached : Reached results len n) (zero : balance results n = 0) (failed : results n = -1) :
    ReadsAvailable results c buf pos len := by
  have transfer := @read_transfer results c buf pos len answers fits word small
  obtain ⟨s, holds, count, total, returns⟩ :=
    transfer.wraps reading_starts rfl rfl reached zero failed
  refine ⟨-1, s.buf, _, chunkRead_returns.mpr ⟨s.fd, rfl, ?_⟩, ?_, fun _ => rfl⟩
  · rw [total] at returns
    exact returns
  · intro works
    exact absurd failed (works n (by simp only [count]; omega))

theorem readsAvailable_worked (small : len < 2 ^ 31) (enough : len ≤ available c pos)
    (works : ∀ i, Reached results len i → results i ≠ -1) :
    ReadsAvailable results c buf pos len := by
  have transfer := @read_transfer results c buf pos len answers fits word (by omega)
  obtain ⟨m, full, before⟩ : ∃ m, balance results m = len ∧ ∀ j < m, Reached results len j := by
    refine balance_fills (by omega) small answers (fun _ => Nat.min_le_left _ _) works ?_
    intro i reached positive
    -- what has been delivered is the balance, so there are bytes left
    have less := (reached i (Nat.le_refl i)).2
    have same := (delivered_eq_balance fun j less =>
      (answers j (reached.of_le (Nat.le_of_lt less))).bounds.1).2.mpr fun j less =>
        works j (reached.of_le (Nat.le_of_lt less))
    omega
  obtain ⟨s, holds, count, total, returns⟩ :=
    transfer.completes reading_starts rfl rfl before full
  have filled := holds.bytes fun j less => works j (before j (count ▸ less))
  rw [total] at filled
  refine ⟨len, s.buf, _, chunkRead_returns.mpr ⟨s.fd, rfl, ?_⟩, ?_, ?_⟩
  · have returned : toSigned 64 len = len := toSigned_small (by omega)
    rw [total, returned] at returns
    exact returns
  · intro _
    rw [Nat.min_eq_left enough, filled]
    refine ⟨rfl, List.take_left' ?_⟩
    rw [available] at enough
    rw [List.length_take, List.length_drop]
    omega
  · rintro ⟨i, less, failed⟩
    exact absurd failed (works i (before i (count ▸ less)))

theorem chunk_read_available : ReadsAvailable results c buf pos len ↔
    (len % 2 ^ 32 < 2 ^ 31 ∧
        ∃ n, Reached results len n ∧ balance results n = 0 ∧ results n = -1) ∨
      (len < 2 ^ 31 ∧ len ≤ available c pos ∧ ∀ i, Reached results len i → results i ≠ -1) := by
  constructor
  · exact readsAvailable_only fits word answers
  · rintro (⟨small, n, reached, zero, failed⟩ | ⟨small, enough, works⟩)
    · exact readsAvailable_failed fits word answers small reached zero failed
    · exact readsAvailable_worked fits word answers small enough works

end Outcome

end Reading

theorem chunk_read_available_short :
    ReadsAvailable (fun _ => 1) (firstChunk [7, 8, 9] 0) [0, 0] 0 2 := by
  refine (chunk_read_available (by decide) (by decide) ?_).mpr (.inr ⟨by decide, by decide, ?_⟩)
  · intro i reached
    have all : ∀ i < 2, Answers (min (request (fun _ => 1) 2 i)
        (available (firstChunk [7, 8, 9] 0) 0 - delivered (fun _ => 1) i)) 1 := by decide +kernel
    exact all i (reached.lt rfl)
  · intro i _
    decide

theorem chunk_read_spins :
    (∀ i, Reached (fun _ => 0) 1 i → Answers (min (request (fun _ => 0) 1 i)
      (available (firstChunk [] 0) 0 - delivered (fun _ => 0) i)) 0) ∧
      ¬ ReadsAvailable (fun _ => 0) (firstChunk [] 0) [0] 0 1 := by
  constructor
  · intro i _
    have none : available (firstChunk [] 0) 0 = 0 := rfl
    exact .inr ⟨Int.le_refl 0, by omega, by omega⟩
  · rintro ⟨result, filled, c', returns, _⟩
    obtain ⟨fd, _, fuel, loops⟩ := chunkRead_returns.mp returns
    have spins : Exec.loop (readPass (ScriptedFile.syscalls fun _ => 0) 1) fuel
        ⟨0, [0], (scripted (firstChunk [] 0)).fd.lseek (toSigned 64 0)⟩ = .timeout := by
      refine Exec.loop_diverges _ (fun s => s.total = 0 ∧ s.buf = [0] ∧
        s.fd.file = (firstChunk [] 0).fd) ?_ _ _ ⟨rfl, rfl, by decide +kernel⟩
      rintro ⟨total, buf, fd⟩ ⟨rfl, rfl, file⟩
      simp only at file
      have batch : batchSize 1 0 = 1 := by decide
      refine ⟨⟨0, [0], ⟨fd.file, fd.calls + 1⟩⟩, ?_, rfl, rfl, file⟩
      simp [readPass, batch, Exec.check, ScriptedFile.syscalls, ScriptedFile.read, OpenFile.read,
        store, toUnsigned]
    simp only [spins] at loops
    cases loops

end SampleFs.Proof.Chunk

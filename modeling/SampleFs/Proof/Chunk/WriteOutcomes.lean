import SampleFs.Proof.Chunk.Transfers

/-!
# Writing under short counts and errors
-/

namespace SampleFs.Proof.Chunk
open Lib Chunkserver

section Writing
variable {results : Nat → Int} {c : ChunkFile} {buf : List UInt8} {len : Nat}

variable (results c buf) in
structure Writing (s : WriteState ScriptedFile) : Prop where
  append : s.fd.file.append = true
  grows : c.fd.content <+: s.fd.file.content
  length : s.fd.file.content.length = c.fd.content.length + delivered results s.fd.calls
  bytes : (∀ j < s.fd.calls, results j ≠ -1) →
    s.fd.file.content = c.fd.content ++ buf.take s.total

theorem write_transfer
    (answers : ∀ i, Reached results len i → Answers (request results len i) (results i))
    (fits : len ≤ buf.length) (word : buf.length < 2 ^ 63) (small : len % 2 ^ 32 < 2 ^ 31) :
    Transfer (writePass (ScriptedFile.syscalls results) buf len) results len WriteState.total
      (fun s => s.fd.calls) (fun s => (toSigned 64 s.total, s.fd)) (Writing results c buf) := by
  have atMost : ∀ i, (∀ j < i, Reached results len j) →
      balance results i ≤ (len % 2 ^ 32 : Nat) := fun i before =>
    balance_le_mod (by omega) small answers (fun _ => Nat.le_refl _) before
  constructor
  · rintro ⟨total, fd⟩ holds reached stands
    simp only at reached stands
    obtain ⟨more, batch, asked⟩ := request_asked (by omega) small reached
      (atMost _ fun j less => reached.of_le (Nat.le_of_lt less)) stands
    have room : total + request results len fd.calls ≤ buf.length := by omega
    have moved := (answers _ reached).toNat_le
    refine ⟨⟨toUnsigned 64 (total + results fd.calls),
      ((ScriptedFile.syscalls results).write fd
        ((buf.drop total).take (request results len fd.calls))).2⟩, ?_, ?_, rfl, ?_⟩
    · simp only [writePass, more, if_true, batch]
      rw [Exec.check_pos _ room]
      rfl
    · rw [balance, ← stands]
    · have cut : ((buf.drop total).take (request results len fd.calls)).take
          (results fd.calls).toNat = (buf.drop total).take (results fd.calls).toNat := by
        rw [List.take_take, Nat.min_eq_left moved]
      obtain ⟨_, keeps, appended⟩ := OpenFile.write_append holds.append
        ((buf.drop total).take (results fd.calls).toNat)
      simp only [ScriptedFile.syscalls, ScriptedFile.write, cut]
      refine ⟨keeps, ?_, ?_, ?_⟩
      · rw [appended]
        exact holds.grows.trans (List.prefix_append _ _)
      · simp only [appended, List.length_append, delivered, holds.length, List.length_take,
          List.length_drop]
        omega
      · intro works
        have here := (answers _ reached).nonneg (works _ (Nat.lt_succ_self _))
        have before := holds.bytes fun j less => works j (Nat.lt_succ_of_lt less)
        have sum := @total_next total _ here (by omega)
        simp only at before appended
        simp only [appended, sum, before, List.append_assoc, List.take_add]
  · intro s beyond
    simp only [writePass, Nat.not_lt.mpr beyond, if_false]
    rfl
  · intro i reached
    exact (answers i reached).bounds.1
  · intro i before
    have := atMost i before
    omega
  · omega

theorem chunkWrite_returns {pos : Nat} {result : Int} {c' : Chunkserver.Chunk ScriptedFile} :
    Exec.Returns (chunkWrite (ScriptedFile.syscalls results) (scripted c) buf pos len) (result, c') ↔
      ∃ fd, c' = { scripted c with fd } ∧
        Exec.Returns (fun n => Exec.loop (writePass (ScriptedFile.syscalls results) buf len) n
          ⟨0, (scripted c).fd.lseek (toSigned 64 pos)⟩) (result, fd) := by
  constructor
  · rintro ⟨fuel, runs⟩
    obtain ⟨⟨leaves, fd⟩, loops, rest⟩ := Exec.bind_eq_ok.mp runs
    cases rest
    exact ⟨fd, rfl, fuel, loops⟩
  · rintro ⟨fd, rfl, fuel, loops⟩
    exact ⟨fuel, Exec.bind_eq_ok.mpr ⟨_, loops, rfl⟩⟩

variable (results c buf) in
/-- All of the buffer once and in order, or a prefix of it up to the first error. -/
def WritesOnce (pos len : Nat) : Prop :=
  ∃ result c', Exec.Returns
      (chunkWrite (ScriptedFile.syscalls results) (scripted c) buf pos len) (result, c') ∧
    (result = len ∧ c'.fd.file.content = c.fd.content ++ buf.take len ∨
      result = -1 ∧ (∃ n, c'.fd.calls = n + 1 ∧ results n = -1 ∧ ∀ i < n, results i ≠ -1) ∧
        ∃ k ≤ len, c'.fd.file.content = c.fd.content ++ buf.take k)

theorem writing_starts (append : c.fd.append = true) (pos : Nat) :
    Writing results c buf ⟨0, (scripted c).fd.lseek (toSigned 64 pos)⟩ :=
  ⟨by simpa [ScriptedFile.lseek, scripted] using append,
    by simp [ScriptedFile.lseek, scripted], by simp [ScriptedFile.lseek, scripted, delivered],
    by simp [ScriptedFile.lseek, scripted]⟩

theorem writePass_huge {fd : ScriptedFile} (fits : len ≤ buf.length) (word : buf.length < 2 ^ 63)
    (large : 2 ^ 31 ≤ len % 2 ^ 32) :
    writePass (ScriptedFile.syscalls results) buf len ⟨0, fd⟩ = .fail .outOfBounds := by
  have huge := batchSize_high (Nat.zero_le len) (by omega) large
  have some : 0 < len := by omega
  simp only [writePass, some, if_true]
  rw [Exec.check_neg _ (by omega)]
  rfl

-- An error that is passed over moves a byte twice, so the file is too long by the errors.
theorem Writing.exact {s : WriteState ScriptedFile} (holds : Writing results c buf s)
    (answers : ∀ i, Reached results len i → Answers (request results len i) (results i))
    (fits : len ≤ buf.length)
    (done : Completed results len WriteState.total (fun s => s.fd.calls) s)
    (content : s.fd.file.content = c.fd.content ++ buf.take len) :
    ∀ i, Reached results len i → results i ≠ -1 := by
  obtain ⟨before, full, total⟩ := done
  simp only at before full
  have length := holds.length
  rw [content, List.length_append, List.length_take] at length
  have same : balance results s.fd.calls = delivered results s.fd.calls := by omega
  have works := (delivered_eq_balance fun j less => (answers j (before j less)).bounds.1).2.mp same
  intro i reached
  exact works i (reached.lt full)

theorem zeros_reached {n : Nat} (some : 0 < len) (zeros : ∀ i < n, results i = 0) :
    Reached results len n ∧ balance results n = 0 ∧ delivered results n = 0 := by
  have still : ∀ i ≤ n, balance results i = 0 ∧ delivered results i = 0 := by
    intro i le
    induction i with
    | zero => exact ⟨rfl, rfl⟩
    | succ i ih =>
        obtain ⟨sum, count⟩ := ih (by omega)
        simp [balance, delivered, sum, count, zeros i (by omega)]
  refine ⟨?_, still n (Nat.le_refl n)⟩
  intro i le
  rw [(still i le).1]
  omega

section Outcome
variable (append : c.fd.append = true) (fits : len ≤ buf.length) (word : buf.length < 2 ^ 63)
  (answers : ∀ i, Reached results len i → Answers (request results len i) (results i))
include append fits word answers

theorem writesOnce_only {pos : Nat} (meets : WritesOnce results c buf pos len) :
    (0 < len ∧ len % 2 ^ 32 < 2 ^ 31 ∧ ∃ n, results n = -1 ∧ ∀ i < n, results i = 0) ∨
      (len < 2 ^ 31 ∧ ∀ i, Reached results len i → results i ≠ -1) := by
  obtain ⟨result, c', returns, outcome⟩ := meets
  obtain ⟨fd, rfl, fuel, loops⟩ := chunkWrite_returns.mp returns
  have small : len % 2 ^ 32 < 2 ^ 31 := by
    by_contra large
    exact Exec.loop_fails (writePass_huge fits word (Nat.le_of_not_lt large)) _ _ loops
  have transfer := @write_transfer results c buf len answers fits word small
  obtain ⟨s, leaves, holds, done | wrapped⟩ :=
    transfer.only (writing_starts append pos) rfl rfl loops
  · have le := balance_le_mod (by omega) small answers (fun _ => Nat.le_refl _) done.1
    have full := done.2.1
    cases leaves
    rw [done.2.2, toSigned_small (by omega)] at outcome
    rcases outcome with ⟨_, content⟩ | ⟨minus, _⟩
    · exact .inr ⟨by omega, holds.exact answers fits done content⟩
    · omega
  · obtain ⟨n, count, reached, zero, failed, total⟩ := wrapped
    cases leaves
    rw [total] at outcome
    rcases outcome with ⟨full, _⟩ | ⟨_, ⟨m, made, _, works⟩, _⟩
    · have minus : toSigned 64 (2 ^ 64 - 1) = -1 := by decide
      omega
    · obtain rfl : m = n := Nat.succ.inj (made.symm.trans count)
      refine .inl ⟨reached_zero.mp (reached.of_le (Nat.zero_le m)), small, m, failed, ?_⟩
      refine (balance_eq_zero ?_).2.mp zero
      intro i less
      exact (answers i (reached.of_le (Nat.le_of_lt less))).nonneg (works i less)

theorem writesOnce_failed {pos n : Nat} (some : 0 < len) (small : len % 2 ^ 32 < 2 ^ 31)
    (failed : results n = -1) (zeros : ∀ i < n, results i = 0) :
    WritesOnce results c buf pos len := by
  have transfer := @write_transfer results c buf len answers fits word small
  obtain ⟨reached, zero, none⟩ := zeros_reached some zeros
  obtain ⟨s, holds, count, total, returns⟩ :=
    transfer.wraps (writing_starts append pos) rfl rfl reached zero failed
  refine ⟨-1, _, chunkWrite_returns.mpr ⟨s.fd, rfl, ?_⟩,
    .inr ⟨rfl, ⟨n, count, failed, ?_⟩, 0, Nat.zero_le _, ?_⟩⟩
  · rw [total] at returns
    exact returns
  · intro i less
    rw [zeros i less]
    decide
  · have length := holds.length
    have moved : delivered results s.fd.calls = 0 := by
      simp [count, delivered, none, failed]
    rw [moved] at length
    simpa using (holds.grows.eq_of_length length.symm).symm

theorem writesOnce_worked {pos : Nat} (small : len < 2 ^ 31)
    (works : ∀ i, Reached results len i → results i ≠ -1) : WritesOnce results c buf pos len := by
  have transfer := @write_transfer results c buf len answers fits word (by omega)
  obtain ⟨m, full, before⟩ := balance_fills (by omega) small answers (fun _ => Nat.le_refl _) works
    fun _ _ positive => positive
  obtain ⟨s, holds, count, total, returns⟩ :=
    transfer.completes (writing_starts append pos) rfl rfl before full
  refine ⟨len, _, chunkWrite_returns.mpr ⟨s.fd, rfl, ?_⟩, .inl ⟨rfl, ?_⟩⟩
  · have returned : toSigned 64 len = len := toSigned_small (by omega)
    rw [total, returned] at returns
    exact returns
  · rw [← total]
    apply holds.bytes
    intro j less
    exact works j (before j (count ▸ less))

theorem chunk_write_once (pos : Nat) : WritesOnce results c buf pos len ↔
    (0 < len ∧ len % 2 ^ 32 < 2 ^ 31 ∧ ∃ n, results n = -1 ∧ ∀ i < n, results i = 0) ∨
      (len < 2 ^ 31 ∧ ∀ i, Reached results len i → results i ≠ -1) := by
  constructor
  · exact writesOnce_only append fits word answers
  · rintro (⟨some, small, n, failed, zeros⟩ | ⟨small, works⟩)
    · exact writesOnce_failed append fits word answers some small failed zeros
    · exact writesOnce_worked append fits word answers small works

end Outcome

theorem chunkWrite_growing (pos : Nat) :
    Exec.Growing (chunkWrite (ScriptedFile.syscalls results) (scripted c) buf pos len) := by
  refine Exec.Growing.bind (Exec.Growing.loop (fun _ => ?_) _) fun _ => ?_
  · exact .const _
  · exact .const _

end Writing

def shortThenRest : Nat → Int := fun i => if i = 0 then 1 else 2

theorem chunk_write_once_short : WritesOnce shortThenRest (firstChunk [] 0) [65, 66, 67] 0 3 := by
  refine (chunk_write_once rfl (by decide) (by decide) ?_ 0).mpr (.inr ⟨by decide, ?_⟩)
  · intro i reached
    have all : ∀ i < 2, Answers (request shortThenRest 3 i) (shortThenRest i) := by decide +kernel
    exact all i (reached.lt rfl)
  · intro i _
    simp only [shortThenRest]
    split <;> decide

def failsSecond : Nat → Int := fun i => if i = 1 then -1 else 1

theorem chunk_write_repeats :
    (∀ i, Reached failsSecond 2 i → Answers (request failsSecond 2 i) (failsSecond i)) ∧
      ¬ WritesOnce failsSecond (firstChunk [] 0) [65, 66] 0 2 := by
  constructor
  · intro i reached
    have all : ∀ i < 4, Answers (request failsSecond 2 i) (failsSecond i) := by decide +kernel
    exact all i (reached.lt rfl)
  · rintro ⟨result, c', returns, outcome⟩
    have repeated : Exec.Returns
        (chunkWrite (ScriptedFile.syscalls failsSecond) (scripted (firstChunk [] 0)) [65, 66] 0 2)
        (2, { scripted (firstChunk [65, 65, 66] 3) with fd := ⟨⟨[65, 65, 66], 3, true⟩, 4⟩ }) :=
      ⟨5, by decide +kernel⟩
    cases Exec.Returns.unique (chunkWrite_growing 0) returns repeated
    rcases outcome with ⟨_, content⟩ | ⟨minus, _⟩
    · cases content
    · cases minus

end SampleFs.Proof.Chunk

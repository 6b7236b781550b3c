import SampleFs.Chunkserver.ChunkServer
import SampleFs.Lib.Related
import SampleFs.Proof.Chunk.RandomAccess

/-!
# Logs

What a chunk is to those who write and read it: bytes that grow at the end, and a cursor that every
call moves from where the last one left it.
-/

namespace SampleFs.Proof.Chunk
open Lib Chunkserver

structure Log where
  bytes : List UInt8
  cursor : Nat
deriving DecidableEq, Repr

namespace Log

def seek (log : Log) (pos : Nat) : Nat :=
  if 0 ≤ log.cursor + toSigned 64 pos ∧ log.cursor + toSigned 64 pos < 2 ^ 63 then
    (log.cursor + toSigned 64 pos).toNat
  else log.cursor

def write (log : Log) (pos : Nat) (data : List UInt8) : Log :=
  ⟨log.bytes ++ data, if data = [] then log.seek pos else log.bytes.length + data.length⟩

def read (log : Log) (pos size : Nat) : List UInt8 := (log.bytes.drop (log.seek pos)).take size

def advance (log : Log) (pos size : Nat) : Log := ⟨log.bytes, log.seek pos + size⟩

def HasBytes (log : Log) (pos size : Nat) : Prop := size = 0 ∨ log.seek pos + size ≤ log.bytes.length

def file (log : Log) : OpenFile := { content := log.bytes, offset := log.cursor, append := true }

theorem lseekCur_file (log : Log) (pos : Nat) :
    log.file.lseekCur (toSigned 64 pos) = (Log.mk log.bytes (log.seek pos)).file := by
  by_cases inside : 0 ≤ log.cursor + toSigned 64 pos ∧ log.cursor + toSigned 64 pos < 2 ^ 63
  · rw [seek, if_pos inside]
    exact if_pos inside
  · rw [seek, if_neg inside]
    exact if_neg inside

theorem write_file (log : Log) {data : List UInt8} (some : data ≠ []) :
    log.file.write data = ((data.length : Int), (Log.mk (log.bytes ++ data) (log.bytes.length + data.length)).file) := by
  simp [OpenFile.write, OpenFile.putAt, file, some]

theorem read_file (log : Log) {size : Nat} (room : log.cursor + size ≤ log.bytes.length) :
    log.file.read size =
      (((size : Int), (log.bytes.drop log.cursor).take size), (Log.mk log.bytes (log.cursor + size)).file) := by
  have full : ((log.bytes.drop log.cursor).take size).length = size := @OpenFile.read_full log.file size room
  simp [OpenFile.read, file, full]

end Log

/-! ## The calls on one descriptor -/

theorem batchSize_fits {len total : Nat} (small : len < 2 ^ 31) (more : total < len) :
    total + batchSize len total ≤ len ∧ 0 < batchSize len total := by
  rw [batchSize_low (Nat.le_of_lt more) (by omega) (by omega), chunkOpLen]
  omega

abbrev fileChunk (id : Nat) (log : Log) : ChunkFile := { chunkId := id, offset := 0, fd := log.file }

theorem chunkWrite_log (id : Nat) (log : Log) (pos : Nat) {data : List UInt8} (small : data.length < 2 ^ 31) :
    Exec.Returns (chunkWrite OpenFile.syscalls (fileChunk id log) data pos data.length)
      (data.length, fileChunk id (log.write pos data)) := by
  have whole := Exec.loop_returns (writePass OpenFile.syscalls data data.length)
    (fun s => s.total ≤ data.length ∧ s.fd = (log.write pos (data.take s.total)).file)
    (fun s => data.length - s.total)
    (fun r => r = ((data.length : Int), (log.write pos data).file)) ?_
    (data.length + 1) { total := 0, fd := log.file.lseekCur (toSigned 64 pos) } ?_ (by simp)
  · obtain ⟨result, loops, rfl⟩ := whole
    exact ⟨data.length + 1, Exec.bind_eq_ok.mpr ⟨_, loops, rfl⟩⟩
  · rintro ⟨total, fd⟩ ⟨le, reached⟩
    simp only at le reached
    by_cases more : total < data.length
    · obtain ⟨inside, moves⟩ := batchSize_fits small more
      obtain ⟨size, sized⟩ : ∃ size, batchSize data.length total = size := ⟨_, rfl⟩
      rw [sized] at inside moves
      have taken : ((data.drop total).take size).length = size := by
        simp only [List.length_take, List.length_drop]
        omega
      have some : (data.drop total).take size ≠ [] := List.length_pos_iff.mp (taken.symm ▸ moves)
      have all : data.take (total + size) ≠ [] := by
        rw [List.take_add]
        exact List.append_ne_nil_of_right_ne_nil _ some
      have next : fd.write ((data.drop total).take size) =
          ((size : Int), (log.write pos (data.take (total + size))).file) := by
        rw [reached, Log.write_file _ some, taken, Log.write, Log.write, if_neg all, List.length_append,
          List.append_assoc, ← List.take_add, List.length_take_of_le le, List.length_take_of_le inside, Nat.add_assoc]
      refine ⟨.again ⟨total + size, (log.write pos (data.take (total + size))).file⟩, ?_, ⟨inside, rfl⟩, ?_⟩
      · simp only [writePass, more, if_true, sized]
        rw [Exec.check_pos _ inside]
        simp only [Exec.ok_bind, OpenFile.syscalls, next, toUnsigned_add (show total + size < 2 ^ 64 by omega)]
        rfl
      · simp only
        omega
    · have done : total = data.length := by omega
      refine ⟨.done (data.length, fd), ?_, ?_⟩
      · simp only [writePass, more, if_false]
        rw [done, toSigned_small (by omega)]
        rfl
      · rw [reached, done, List.take_length]
  · refine ⟨Nat.zero_le _, ?_⟩
    rw [Log.lseekCur_file, List.take_zero, Log.write, if_pos rfl, List.append_nil]

theorem chunkRead_log (id : Nat) (log : Log) {pos : Nat} {buf : List UInt8} (small : buf.length < 2 ^ 31)
    (bytes : log.HasBytes pos buf.length) :
    Exec.Returns (chunkRead OpenFile.syscalls (fileChunk id log) buf pos buf.length)
      ((buf.length, log.read pos buf.length), fileChunk id (log.advance pos buf.length)) := by
  have whole := Exec.loop_returns (readPass OpenFile.syscalls buf.length)
    (fun s => s.total ≤ buf.length ∧ s.fd = (log.advance pos s.total).file ∧
      s.buf = log.read pos s.total ++ buf.drop s.total)
    (fun s => buf.length - s.total)
    (fun r => r = (((buf.length : Int), log.read pos buf.length), (log.advance pos buf.length).file)) ?_
    (buf.length + 1) { total := 0, buf, fd := log.file.lseekCur (toSigned 64 pos) } ?_ (by simp)
  · obtain ⟨result, loops, rfl⟩ := whole
    exact ⟨buf.length + 1, Exec.bind_eq_ok.mpr ⟨_, loops, rfl⟩⟩
  · rintro ⟨total, filled, fd⟩ ⟨le, reached, filling⟩
    simp only at le reached filling
    by_cases more : total < buf.length
    · obtain ⟨inside, moves⟩ := batchSize_fits small more
      obtain ⟨size, sized⟩ : ∃ size, batchSize buf.length total = size := ⟨_, rfl⟩
      rw [sized] at inside moves
      have room : log.seek pos + buf.length ≤ log.bytes.length := bytes.resolve_left (by omega)
      have length : filled.length = buf.length := by
        simp only [filling, Log.read, List.length_append, List.length_take, List.length_drop]
        omega
      have next : fd.read size = (((size : Int), ((log.bytes.drop (log.seek pos)).drop total).take size),
          (log.advance pos (total + size)).file) := by
        rw [reached, Log.read_file]
        · rw [Log.advance, Log.advance, List.drop_drop, Nat.add_assoc]
        · simp only [Log.advance]
          omega
      refine ⟨.again ⟨total + size, store filled total (((log.bytes.drop (log.seek pos)).drop total).take size),
        (log.advance pos (total + size)).file⟩, ?_, ⟨inside, rfl, ?_⟩, ?_⟩
      · simp only [readPass, more, if_true, length, sized]
        rw [Exec.check_pos _ inside]
        simp only [Exec.ok_bind, OpenFile.syscalls, next, toUnsigned_add (show total + size < 2 ^ 64 by omega)]
        rfl
      · rw [filling]
        apply store_next
        simp only [List.length_drop]
        omega
      · simp only
        omega
    · have done : total = buf.length := by omega
      refine ⟨.done ((buf.length, filled), fd), ?_, ?_⟩
      · simp only [readPass, more, if_false]
        rw [done, toSigned_small (by omega)]
        rfl
      · rw [reached, filling, done, List.drop_length, List.append_nil]
  · refine ⟨Nat.zero_le _, ?_, ?_⟩
    · exact Log.lseekCur_file log pos
    · simp [Log.read]

end SampleFs.Proof.Chunk

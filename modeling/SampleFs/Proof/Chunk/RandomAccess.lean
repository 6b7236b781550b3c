import SampleFs.Lib.Trace
import SampleFs.Chunkserver.Chunk

namespace SampleFs.Proof.Chunk
open Lib Chunkserver OpenFile

inductive ChunkCall where
  | write (pos : Nat) (data : List UInt8)
  | read (pos : Nat) (buf : List UInt8)
deriving DecidableEq, Repr

inductive ChunkReply where
  | write (result : Int)
  | read (result : Int) (buf : List UInt8)
deriving DecidableEq, Repr

abbrev ChunkFile := Chunkserver.Chunk OpenFile

-- `pos` and `len` are `size_t`, and `buf` holds `len` bytes.
def chunkStep : System ChunkFile ChunkCall ChunkReply := fun c call reply c' =>
  match call with
  | .write pos data => pos < 2 ^ 64 ∧ data.length < 2 ^ 64 ∧ ∃ result,
      Exec.Returns (chunkWrite syscalls c data pos data.length) (result, c') ∧ reply = .write result
  | .read pos buf => pos < 2 ^ 64 ∧ buf.length < 2 ^ 64 ∧ ∃ result filled,
      Exec.Returns (chunkRead syscalls c buf pos buf.length) ((result, filled), c') ∧
        reply = .read result filled

/-! ## The store a history stands for -/

abbrev Store := Nat → Option UInt8

def Store.next (w : Store) : ChunkCall → Store
  | .write pos data => fun i => if pos ≤ i ∧ i < pos + data.length then data[i - pos]? else w i
  | .read .. => w

def written (history : List (ChunkCall × ChunkReply)) : Store :=
  history.foldl (fun w event => w.next event.1) fun _ => none

def ReadsBack (w : Store) (c : ChunkFile) (pos : Nat) (buf : List UInt8) : Prop :=
  (∀ i < buf.length, (w (pos + i)).isSome) →
    ∃ filled c', Exec.Returns (chunkRead syscalls c buf pos buf.length) ((buf.length, filled), c') ∧
      filled.length = buf.length ∧ ∀ i < buf.length, filled[i]? = w (pos + i)

def AtEnd (c : ChunkFile) : ChunkCall → Prop
  | .write pos data => data = [] ∨ pos = c.fd.content.length
  | .read .. => True

def Lands (c : ChunkFile) (pos len : Nat) : Prop :=
  len = 0 ∨ len < 2 ^ 31 ∧ (c.fd.lseekCur (toSigned 64 pos)).offset = pos

structure Holds (c : ChunkFile) (w : Store) : Prop where
  append : c.fd.append = true
  bytes : ∀ i byte, w i = some byte → c.fd.content[i]? = some byte

theorem batchSize_low {len total : Nat} (le : total ≤ len) (word : len < 2 ^ 64)
    (small : (len - total) % 2 ^ 32 < 2 ^ 31) :
    batchSize len total = min ((len - total) % 2 ^ 32) chunkOpLen := by
  have difference : ((len : Int) - total) = ((len - total : Nat) : Int) := by omega
  have narrowed : toSigned 32 (len - total) = (((len - total) % 2 ^ 32 : Nat) : Int) := by
    rw [toSigned, if_pos small]
  rw [batchSize, difference, toUnsigned_natCast (by omega), narrowed, minInt]
  split
  · rw [toUnsigned_natCast (by omega), Nat.min_eq_left (by omega)]
  · rw [toUnsigned_natCast (by decide), Nat.min_eq_right (by omega)]

theorem batchSize_high {len total : Nat} (le : total ≤ len) (word : len < 2 ^ 64)
    (large : 2 ^ 31 ≤ (len - total) % 2 ^ 32) : 2 ^ 63 ≤ batchSize len total := by
  have difference : ((len : Int) - total) = ((len - total : Nat) : Int) := by omega
  have narrowed : toSigned 32 (len - total) = (((len - total) % 2 ^ 32 : Nat) : Int) - (2 ^ 32 : Nat) := by
    rw [toSigned, if_neg (by omega)]
  rw [batchSize, difference, toUnsigned_natCast (by omega), narrowed, minInt, if_pos (by omega), toUnsigned]
  omega

theorem toUnsigned_add {total bytes : Nat} (word : total + bytes < 2 ^ 64) :
    toUnsigned 64 ((total : Int) + (bytes : Int)) = total + bytes := by
  rw [← Int.natCast_add, toUnsigned_natCast word]

theorem store_next {source buf : List UInt8} {total size : Nat} (room : total + size ≤ source.length) :
    store (source.take total ++ buf.drop total) total ((source.drop total).take size) =
      source.take (total + size) ++ buf.drop (total + size) := by
  have prefixed : (source.take total).length = total := by
    simp only [List.length_take]
    omega
  have moved : ((source.drop total).take size).length = size := by
    simp only [List.length_take, List.length_drop]
    omega
  have passed : (source.take total).drop (total + size) = [] :=
    List.drop_eq_nil_of_le (by omega)
  rw [store, moved, List.take_left' prefixed, List.drop_append, prefixed, passed, List.nil_append,
    List.drop_drop, List.take_add, Nat.add_sub_cancel_left]

theorem chunkWrite_appends {c c' : ChunkFile} {data : List UInt8} {pos : Nat} {result : Int}
    (append : c.fd.append = true) (word : data.length < 2 ^ 64)
    (returns : Exec.Returns (chunkWrite syscalls c data pos data.length) (result, c')) :
    c'.fd.append = true ∧ c'.fd.content = c.fd.content ++ data := by
  obtain ⟨fuel, runs⟩ := returns
  obtain ⟨⟨leaves, fd⟩, loops, rest⟩ := Exec.bind_eq_ok.mp runs
  cases rest
  refine Exec.loop_post (writePass syscalls data data.length)
    (fun s => s.total ≤ data.length ∧ s.fd.append = true ∧
      s.fd.content = c.fd.content ++ data.take s.total)
    (fun r => r.2.append = true ∧ r.2.content = c.fd.content ++ data) ?_ ?_ loops
  · rintro ⟨total, fd⟩ p ⟨le, append, content⟩ passes
    simp only at le append content
    by_cases more : total < data.length
    · simp only [writePass, more, if_true] at passes
      obtain ⟨_, inside, goes⟩ := Exec.bind_eq_ok.mp passes
      have room := Exec.check_eq_ok.mp inside
      cases goes
      generalize batchSize data.length total = batch at room
      have taken : ((data.drop total).take batch).length = batch := by
        simp only [List.length_take, List.length_drop]
        omega
      obtain ⟨count, keeps, appended⟩ := write_append append ((data.drop total).take batch)
      simp only [syscalls, count, taken]
      rw [toUnsigned_add (by omega)]
      refine ⟨room, keeps, ?_⟩
      rw [appended, content, List.append_assoc, List.take_add]
    · have total_eq : total = data.length := by omega
      simp only [writePass, more, if_false] at passes
      cases passes
      exact ⟨append, by simp [content, total_eq]⟩
  · exact ⟨Nat.zero_le _, by simpa [syscalls] using append, by simp [syscalls]⟩

theorem chunkRead_keeps {c c' : ChunkFile} {buf filled : List UInt8} {pos len : Nat} {result : Int}
    (returns : Exec.Returns (chunkRead syscalls c buf pos len) ((result, filled), c')) :
    c'.fd.append = c.fd.append ∧ c'.fd.content = c.fd.content := by
  obtain ⟨fuel, runs⟩ := returns
  obtain ⟨⟨leaves, fd⟩, loops, rest⟩ := Exec.bind_eq_ok.mp runs
  cases rest
  refine Exec.loop_post (readPass syscalls len)
    (fun s => s.fd.append = c.fd.append ∧ s.fd.content = c.fd.content)
    (fun r => r.2.append = c.fd.append ∧ r.2.content = c.fd.content) ?_ ?_ loops
  · rintro s p same passes
    by_cases more : s.total < len
    · simp only [readPass, more, if_true] at passes
      obtain ⟨_, _, goes⟩ := Exec.bind_eq_ok.mp passes
      cases goes
      exact same
    · simp only [readPass, more, if_false] at passes
      cases passes
      exact same
  · simp [syscalls]

theorem chunkRead_fills {c : ChunkFile} {buf : List UInt8} {pos : Nat} (small : buf.length < 2 ^ 31)
    (lands : (c.fd.lseekCur (toSigned 64 pos)).offset = pos)
    (room : pos + buf.length ≤ c.fd.content.length) :
    ∃ c', Exec.Returns (chunkRead syscalls c buf pos buf.length)
      ((buf.length, (c.fd.content.drop pos).take buf.length), c') := by
  have whole := Exec.loop_returns (readPass syscalls buf.length)
    (fun s => s.total ≤ buf.length ∧ s.fd.content = c.fd.content ∧ s.fd.offset = pos + s.total ∧
      s.buf = (c.fd.content.drop pos).take s.total ++ buf.drop s.total)
    (fun s => buf.length - s.total)
    (fun r => r.1 = ((buf.length : Int), (c.fd.content.drop pos).take buf.length)) ?_
    (buf.length + 1) { total := 0, buf, fd := c.fd.lseekCur (toSigned 64 pos) } ?_ (by simp)
  · obtain ⟨⟨result, fd⟩, loops, leaves⟩ := whole
    simp only at leaves
    subst leaves
    exact ⟨{ c with fd }, buf.length + 1, Exec.bind_eq_ok.mpr ⟨_, loops, rfl⟩⟩
  · rintro ⟨total, filled, fd⟩ ⟨le, content, offset, filling⟩
    simp only at le content offset filling
    have length : filled.length = buf.length := by
      simp [filling]
      omega
    by_cases more : total < buf.length
    · have batch := batchSize_low (Nat.le_of_lt more) (by omega) (by omega)
      obtain ⟨size, sized⟩ : ∃ size, batchSize buf.length total = size := ⟨_, rfl⟩
      rw [sized] at batch
      have bound : total + size ≤ buf.length ∧ 0 < size := by
        rw [batch, chunkOpLen]
        omega
      have full : ((fd.content.drop fd.offset).take size).length = size :=
        read_full (by rw [content, offset]; omega)
      have sum : toUnsigned 64 ((total : Int) + (size : Int)) = total + size :=
        toUnsigned_add (by omega)
      refine ⟨.again ⟨total + size, store filled total ((fd.content.drop fd.offset).take size),
        (fd.read size).2⟩, ?_, ⟨bound.1, content, ?_, ?_⟩, ?_⟩
      · simp only [readPass, more, if_true, length, sized]
        rw [Exec.check_pos _ bound.1]
        simp [syscalls, OpenFile.read, full, sum]
      · simp only [OpenFile.read, full]
        omega
      · rw [content, offset, ← List.drop_drop, filling]
        apply store_next
        simp only [List.length_drop]
        omega
      · simp only
        omega
    · have total_eq : total = buf.length := by omega
      refine ⟨.done (((buf.length : Int), filled), fd), ?_, ?_⟩
      · simp only [readPass, more, if_false]
        rw [total_eq, toSigned_small (by omega)]
        rfl
      · simp [filling, total_eq]
  · exact ⟨Nat.zero_le _, by simp, by simpa using lands, by simp⟩

theorem holds_step {c c' : ChunkFile} {w : Store} {call : ChunkCall} {reply : ChunkReply}
    (holds : Holds c w) (step : guarded AtEnd chunkStep c call reply c') : Holds c' (w.next call) := by
  obtain ⟨atEnd, taken⟩ := step
  cases call with
  | read pos buf =>
      obtain ⟨_, _, result, filled, returns, _⟩ := taken
      obtain ⟨append, content⟩ := chunkRead_keeps returns
      exact ⟨append.trans holds.append, fun i byte stored => by rw [content]; exact holds.bytes i byte stored⟩
  | write pos data =>
      obtain ⟨_, word, result, returns, _⟩ := taken
      obtain ⟨append, content⟩ := chunkWrite_appends holds.append word returns
      refine ⟨append, ?_⟩
      intro i byte stored
      rw [content]
      simp only [Store.next] at stored
      split at stored
      next inside =>
        have nonempty : data ≠ [] := by
          intro empty
          simp only [empty, List.length_nil] at inside
          omega
        have ends : pos = c.fd.content.length := atEnd.resolve_left nonempty
        rw [List.getElem?_append_right (by omega), ← ends]
        exact stored
      next =>
        have there := holds.bytes i byte stored
        have bound : i < c.fd.content.length := (List.getElem?_eq_some_iff.mp there).1
        rw [List.getElem?_append_left bound]
        exact there

theorem holds_reads {c : ChunkFile} {w : Store} (holds : Holds c w) {pos : Nat} {buf : List UInt8}
    (lands : Lands c pos buf.length) : ReadsBack w c pos buf := by
  intro covered
  have inside : ∀ i < buf.length, c.fd.content[pos + i]? = w (pos + i) := by
    intro i less
    obtain ⟨byte, stored⟩ := Option.isSome_iff_exists.mp (covered i less)
    rw [stored]
    exact holds.bytes _ _ stored
  by_cases empty : buf.length = 0
  · refine ⟨buf, { c with fd := c.fd.lseekCur (toSigned 64 pos) }, ⟨1, ?_⟩, rfl, ?_⟩
    · simp [chunkRead, Exec.loop, readPass, empty, syscalls, toSigned]
    · intro i less
      omega
  · obtain ⟨small, reached⟩ := lands.resolve_left empty
    have room : pos + buf.length ≤ c.fd.content.length := by
      obtain ⟨byte, stored⟩ := Option.isSome_iff_exists.mp (covered (buf.length - 1) (by omega))
      have bound := (List.getElem?_eq_some_iff.mp (holds.bytes _ _ stored)).1
      omega
    obtain ⟨c', returns⟩ := chunkRead_fills small reached room
    refine ⟨_, c', returns, ?_, ?_⟩
    · simp only [List.length_take, List.length_drop]
      omega
    · intro i less
      rw [List.getElem?_take_of_lt less, List.getElem?_drop]
      exact inside i less

theorem chunk_random_access {opens : List UInt8 → Bool} {dir : Directory} {id : Int} {start c : ChunkFile}
    {history : List (ChunkCall × ChunkReply)} (init : chunkInit opens dir id = .ok (some start))
    (run : Run (guarded AtEnd chunkStep) start history c) (pos : Nat) (buf : List UInt8)
    (lands : Lands c pos buf.length) : ReadsBack (written history) c pos buf := by
  have fresh : Holds start fun _ => none := by
    unfold chunkInit at init
    split at init
    · obtain ⟨_, _, made⟩ := Exec.bind_eq_ok.mp init
      cases made
      exact ⟨rfl, fun i byte stored => by cases stored⟩
    · cases init
  have holds : Holds c (written history) := by
    refine run.follows (fun w event => Store.next w event.1) Holds ?_ fresh
    intro _ _ _ _ _ related step
    exact holds_step related step
  exact holds_reads holds lands

def emptyDir : Directory := fun _ => none

def firstChunk (content : List UInt8) (offset : Nat) : ChunkFile :=
  { chunkId := 0, offset := 0, fd := { content, offset, append := true } }

-- Only an offset that counts back from the end, here -1 as a `size_t`, returns to the start.
theorem chunk_random_access_rewound : ReadsBack (written [(.write 0 [65], .write 1),
    (.read (2 ^ 64 - 1) [], .read 0 [])]) (firstChunk [65] 0) 0 [0] := by
  have init : chunkInit (fun _ => true) emptyDir 0 = .ok (some (firstChunk [] 0)) := rfl
  have writes : guarded AtEnd chunkStep (firstChunk [] 0) (.write 0 [65]) (.write 1) (firstChunk [65] 1) :=
    ⟨.inr rfl, by decide, by decide, 1, ⟨3, by decide +kernel⟩, rfl⟩
  have rewinds : guarded AtEnd chunkStep (firstChunk [65] 1) (.read (2 ^ 64 - 1) []) (.read 0 [])
      (firstChunk [65] 0) :=
    ⟨trivial, by omega, by decide, 0, [], ⟨3, by decide +kernel⟩, rfl⟩
  exact chunk_random_access init (.cons writes (.single rewinds)) 0 [0] (.inr (by decide +kernel))

theorem chunk_read_after_write : ∃ start c, chunkInit (fun _ => true) emptyDir 0 = .ok (some start) ∧
    Run chunkStep start [(.write 0 [65], .write 1)] c ∧
    ¬ ReadsBack (written [(.write 0 [65], .write 1)]) c 0 [0] := by
  refine ⟨_, firstChunk [65] 1, rfl, .single ⟨by decide, by decide, 1, ⟨3, by decide +kernel⟩, rfl⟩, ?_⟩
  intro reads
  obtain ⟨filled, c', ⟨fuel, returns⟩, _⟩ := reads (by decide)
  have spins : Exec.loop (readPass syscalls 1) fuel ⟨0, [0], (firstChunk [65] 1).fd⟩ = .timeout := by
    refine Exec.loop_diverges _ (fun s => s = ⟨0, [0], (firstChunk [65] 1).fd⟩) ?_ _ _ rfl
    rintro s rfl
    exact ⟨_, rfl, rfl⟩
  have stays : syscalls.lseek (firstChunk [65] 1).fd (toSigned 64 0) = (firstChunk [65] 1).fd := by
    decide +kernel
  obtain ⟨_, loops, _⟩ := Exec.bind_eq_ok.mp returns
  rw [stays] at loops
  exact absurd (spins.symm.trans loops) (by simp)

end SampleFs.Proof.Chunk

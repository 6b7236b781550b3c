import SampleFs.Proof.Chunk.Logs

namespace SampleFs.Proof.Chunk
open Lib Chunkserver

/-! ## A file in its directory -/

section
variable {dir : Directory} {name : List UInt8}

/-- The descriptor sees the file, and the rest of the directory is as it was. -/
structure Mirrors (dir : Directory) (name : List UInt8) (file : OpenFile) (f : DirFile) : Prop where
  append : file.append = true
  named : f.name = name
  offset : f.offset = file.offset
  files : f.dir = Function.update dir name (some file.content)

theorem Mirrors.file_eq {file : OpenFile} {f : DirFile} (mirrors : Mirrors dir name file f) : f.file = file := by
  obtain ⟨append, named, offset, files⟩ := mirrors
  simp [DirFile.file, named, offset, files, ← append]

theorem Mirrors.lseek {file : OpenFile} {f : DirFile} (mirrors : Mirrors dir name file f) (delta : Int) :
    Mirrors dir name (OpenFile.syscalls.lseek file delta) (DirFile.syscalls.lseek f delta) := by
  constructor
  · simpa [OpenFile.syscalls] using mirrors.append
  · exact mirrors.named
  · simp only [DirFile.syscalls, OpenFile.syscalls, mirrors.file_eq]
  · simpa [DirFile.syscalls, OpenFile.syscalls] using mirrors.files

theorem Mirrors.write {file : OpenFile} {f : DirFile} (mirrors : Mirrors dir name file f) (data : List UInt8) :
    (DirFile.syscalls.write f data).1 = (OpenFile.syscalls.write file data).1 ∧
      Mirrors dir name (OpenFile.syscalls.write file data).2 (DirFile.syscalls.write f data).2 := by
  simp only [DirFile.syscalls, OpenFile.syscalls, mirrors.file_eq]
  refine ⟨trivial, (OpenFile.write_append mirrors.append data).2.1, mirrors.named, rfl, ?_⟩
  simp only [DirFile.put, mirrors.files, mirrors.named, Function.update_idem]

theorem Mirrors.read {file : OpenFile} {f : DirFile} (mirrors : Mirrors dir name file f) (size : Nat) :
    (DirFile.syscalls.read f size).1 = (OpenFile.syscalls.read file size).1 ∧
      Mirrors dir name (OpenFile.syscalls.read file size).2 (DirFile.syscalls.read f size).2 := by
  simp only [DirFile.syscalls, OpenFile.syscalls, mirrors.file_eq]
  exact ⟨trivial, mirrors.append, mirrors.named, rfl, mirrors.files⟩

structure ChunkMirrors (dir : Directory) (name : List UInt8) (c : ChunkFile) (d : Chunkserver.Chunk DirFile) : Prop where
  chunkId : d.chunkId = c.chunkId
  offset : d.offset = c.offset
  fd : Mirrors dir name c.fd d.fd

theorem ChunkMirrors.eq {id : Nat} {log : Log} {d : Chunkserver.Chunk DirFile}
    (mirrors : ChunkMirrors dir name (fileChunk id log) d) :
    d = ⟨id, 0, ⟨Function.update dir name (some log.bytes), name, log.cursor⟩⟩ := by
  obtain ⟨chunkId, offset, f, named, at_⟩ := d
  obtain ⟨sameId, sameOffset, _, sameName, sameAt, sameDir⟩ := mirrors
  simp only at sameId sameOffset sameName sameAt sameDir
  rw [sameId, sameOffset, sameName, sameAt, sameDir]
  rfl

variable {c : ChunkFile} {d : Chunkserver.Chunk DirFile}

theorem chunkWrite_mirrors (mirrors : ChunkMirrors dir name c d) (data : List UInt8) (pos fuel : Nat) :
    Exec.Related (fun r q => q.1 = r.1 ∧ ChunkMirrors dir name r.2 q.2)
      (chunkWrite OpenFile.syscalls c data pos data.length fuel)
      (chunkWrite DirFile.syscalls d data pos data.length fuel) := by
  have loops : Exec.Related (fun r q => q.1 = r.1 ∧ Mirrors dir name r.2 q.2)
      (Exec.loop (writePass OpenFile.syscalls data data.length) fuel ⟨0, OpenFile.syscalls.lseek c.fd (toSigned 64 pos)⟩)
      (Exec.loop (writePass DirFile.syscalls data data.length) fuel ⟨0, DirFile.syscalls.lseek d.fd (toSigned 64 pos)⟩) := by
    refine Exec.Related.loop (fun s t => t.total = s.total ∧ Mirrors dir name s.fd t.fd) ?_ fuel ⟨rfl, mirrors.fd.lseek _⟩
    rintro ⟨_, file⟩ ⟨total, f⟩ ⟨rfl, kept⟩
    by_cases more : total < data.length
    · simp only [writePass, more, if_true]
      refine (Exec.Related.check _ _).bind fun _ _ _ => .ok (Pass.Related.again ?_)
      obtain ⟨same, next⟩ := kept.write ((data.drop total).take (batchSize data.length total))
      rw [same]
      exact ⟨rfl, next⟩
    · simp only [writePass, more, if_false]
      exact .ok (Pass.Related.done ⟨rfl, kept⟩)
  refine loops.bind ?_
  rintro ⟨_, file⟩ ⟨result, f⟩ ⟨rfl, kept⟩
  exact .ok ⟨rfl, mirrors.chunkId, mirrors.offset, kept⟩

theorem chunkRead_mirrors (mirrors : ChunkMirrors dir name c d) (buf : List UInt8) (pos fuel : Nat) :
    Exec.Related (fun r q => q.1 = r.1 ∧ ChunkMirrors dir name r.2 q.2)
      (chunkRead OpenFile.syscalls c buf pos buf.length fuel)
      (chunkRead DirFile.syscalls d buf pos buf.length fuel) := by
  have loops : Exec.Related (fun r q => q.1 = r.1 ∧ Mirrors dir name r.2 q.2)
      (Exec.loop (readPass OpenFile.syscalls buf.length) fuel ⟨0, buf, OpenFile.syscalls.lseek c.fd (toSigned 64 pos)⟩)
      (Exec.loop (readPass DirFile.syscalls buf.length) fuel ⟨0, buf, DirFile.syscalls.lseek d.fd (toSigned 64 pos)⟩) := by
    refine Exec.Related.loop (fun s t => t.total = s.total ∧ t.buf = s.buf ∧ Mirrors dir name s.fd t.fd) ?_ fuel
      ⟨rfl, rfl, mirrors.fd.lseek _⟩
    rintro ⟨_, _, file⟩ ⟨total, filled, f⟩ ⟨rfl, rfl, kept⟩
    by_cases more : total < buf.length
    · simp only [readPass, more, if_true]
      refine (Exec.Related.check _ _).bind fun _ _ _ => .ok (Pass.Related.again ?_)
      obtain ⟨same, next⟩ := kept.read (batchSize buf.length total)
      exact ⟨congrArg (fun r => toUnsigned 64 (total + r.1)) same, congrArg (fun r => store filled total r.2) same, next⟩
    · simp only [readPass, more, if_false]
      exact .ok (Pass.Related.done ⟨rfl, kept⟩)
  refine loops.bind ?_
  rintro ⟨_, file⟩ ⟨result, f⟩ ⟨rfl, kept⟩
  exact .ok ⟨rfl, mirrors.chunkId, mirrors.offset, kept⟩

end

/-! ## The names of the chunks -/

theorem ofNat_digitByte {c : Char} (digit : c.isDigit) : Char.ofNat (digitByte c).toNat = c := by
  simp only [Char.isDigit, Bool.and_eq_true, decide_eq_true_eq] at digit
  have low : c.toNat < 256 := Nat.lt_of_le_of_lt (UInt32.le_iff_toNat_le.mp digit.2) (by decide)
  rw [digitByte, UInt8.toNat_ofNat_of_lt' low, Char.ofNat_toNat]

theorem toDigits_of_bytes (n : Nat) :
    ((Nat.toDigits 10 n).map digitByte).map (fun byte => Char.ofNat byte.toNat) = Nat.toDigits 10 n := by
  rw [List.map_map]
  have same : ∀ c ∈ Nat.toDigits 10 n, Char.ofNat (digitByte c).toNat = c := by
    intro c member
    exact ofNat_digitByte (Nat.isDigit_of_mem_toDigits (by decide) (by decide) member)
  exact (List.map_congr_left same).trans (List.map_id _)

theorem chunkName_eq {id : Nat} (small : id < 2 ^ 31) :
    chunkName id = (Nat.toDigits 10 id).map digitByte ++ ".chunk".toList.map digitByte := by
  have digits : (Nat.toDigits 10 id).length ≤ 10 := by
    rw [Nat.length_toDigits_le_iff (by decide) (by decide)]
    exact small.trans (by decide)
  rw [chunkName, List.take_of_length_le, List.map_append]
  simp only [List.length_map, List.length_append]
  have suffix : ".chunk".toList.length = 6 := rfl
  omega

theorem chunkName_inj {i j : Nat} (smallI : i < 2 ^ 31) (smallJ : j < 2 ^ 31) (same : chunkName i = chunkName j) : i = j := by
  rw [chunkName_eq smallI, chunkName_eq smallJ] at same
  have digits := List.append_cancel_right same
  have chars : Nat.toDigits 10 i = Nat.toDigits 10 j := by
    rw [← toDigits_of_bytes i, digits, toDigits_of_bytes]
  rw [← Nat.ofDigitChars_ten_toDigits (n := i), chars, Nat.ofDigitChars_ten_toDigits]

/-! ## The server and its logs -/

def answerLogs (logs : List Log) : StoreRequest → StoreReply × List Log
  | .write i pos data =>
      match logs[i]? with
      | none => (.written 0, logs)
      | some log => (.written data.length, logs.set i (log.write pos data))
  | .read i pos buf =>
      match logs[i]? with
      | none => (.filled 0 buf, logs)
      | some log => (.filled buf.length (log.read pos buf.length), logs.set i (log.advance pos buf.length))
  | .restart => (.restarted, logs.map fun log => ⟨log.bytes, 0⟩)

/-- There is such a chunk, an `int` holds the length, and what is to be read is there. -/
def AllowedByLogs (logs : List Log) : StoreRequest → Prop
  | .write i _ data => i < logs.length ∧ data.length < 2 ^ 31
  | .read i pos buf => buf.length < 2 ^ 31 ∧ ∃ log, logs[i]? = some log ∧ log.HasBytes pos buf.length
  | .restart => True

/-- The server over a directory that was `initial` before. -/
structure Stores (initial : Directory) (s : ChunkServer) (logs : List Log) : Prop where
  few : logs.length ≤ 2 ^ 31
  size : s.chunks.length = logs.length
  chunks : ∀ (i : Nat) (log : Log), logs[i]? = some log → s.chunks[i]? = some (some ⟨i, 0, ⟨chunkName i, log.cursor⟩⟩)
  files : ∀ (i : Nat) (log : Log), logs[i]? = some log → s.dir (chunkName i) = some log.bytes
  others : ∀ name, (∀ i < logs.length, name ≠ chunkName i) → s.dir name = initial name

/-- Each of the first `count` chunks is opened, whatever the directory then holds. -/
def OpensAll (opens : ChunkServer → List UInt8 → Bool) (count : Nat) : Prop :=
  ∀ (s : ChunkServer) (i : Nat), i < count → s.chunks.length = i → opens s (chunkName i)

section
variable {opens : ChunkServer → List UInt8 → Bool} {initial : Directory} {s : ChunkServer} {logs : List Log}

theorem Stores.set (stores : Stores initial s logs) {i : Nat} {log changed : Log} (at_ : logs[i]? = some log) :
    Stores initial ⟨Function.update s.dir (chunkName i) (some changed.bytes),
      s.chunks.set i (some ⟨i, 0, ⟨chunkName i, changed.cursor⟩⟩)⟩ (logs.set i changed) := by
  obtain ⟨few, size, chunks, files, others⟩ := stores
  have inside : i < logs.length := (List.getElem?_eq_some_iff.mp at_).1
  have cases_ (j : Nat) (found : Log) (there : (logs.set i changed)[j]? = some found) :
      i = j ∧ found = changed ∨ i ≠ j ∧ logs[j]? = some found := by
    by_cases here : i = j
    · subst here
      rw [List.getElem?_set_self inside] at there
      exact .inl ⟨rfl, (Option.some.inj there).symm⟩
    · rw [List.getElem?_set_ne here] at there
      exact .inr ⟨here, there⟩
  refine ⟨by simpa using few, by simpa using size, ?_, ?_, ?_⟩
  · intro j found there
    rcases cases_ j found there with ⟨rfl, rfl⟩ | ⟨other, there⟩
    · exact List.getElem?_set_self (size ▸ inside)
    · exact (List.getElem?_set_ne other).trans (chunks j found there)
  · intro j found there
    rcases cases_ j found there with ⟨rfl, rfl⟩ | ⟨other, there⟩
    · exact Function.update_self _ _ _
    · have below : j < logs.length := (List.getElem?_eq_some_iff.mp there).1
      have apart : chunkName j ≠ chunkName i := fun same => other (chunkName_inj (by omega) (by omega) same).symm
      exact (Function.update_of_ne apart _ _).trans (files j found there)
  · intro name apart
    rw [List.length_set] at apart
    exact (Function.update_of_ne (apart i inside) _ _).trans (others name apart)

/-- A call that turns the one log into the other as a call on an open file does the same in the server. -/
theorem Stores.onChunk {α : Type} (stores : Stores initial s logs) {i : Nat} {log changed : Log}
    (at_ : logs[i]? = some log) {call : Nat → ChunkFile → Exec Fault (α × ChunkFile)}
    {dirCall : Nat → Chunkserver.Chunk DirFile → Exec Fault (α × Chunkserver.Chunk DirFile)}
    (mirrored : ∀ c d fuel, ChunkMirrors s.dir (chunkName i) c d →
      Exec.Related (fun r q => q.1 = r.1 ∧ ChunkMirrors s.dir (chunkName i) r.2 q.2) (call fuel c) (dirCall fuel d))
    {result : α} (returns : Exec.Returns (fun fuel => call fuel (fileChunk i log)) (result, fileChunk i changed)) :
    ∃ s', Exec.Returns (fun fuel => s.onChunk i (dirCall fuel)) (result, s') ∧ Stores initial s' (logs.set i changed) := by
  have mirrors : ChunkMirrors s.dir (chunkName i) (fileChunk i log) ⟨i, 0, ⟨s.dir, chunkName i, log.cursor⟩⟩ := by
    refine ⟨rfl, rfl, rfl, rfl, rfl, ?_⟩
    exact (Function.update_eq_self_iff.mpr (stores.files i log at_).symm).symm
  obtain ⟨⟨same, d⟩, ⟨fuel, runs⟩, rfl, kept⟩ := Exec.Related.returns (fun fuel => mirrored _ _ fuel mirrors) returns
  obtain rfl : d = _ := kept.eq
  refine ⟨_, ⟨fuel, ?_⟩, stores.set at_⟩
  simp only [ChunkServer.onChunk, stores.chunks i log at_, runs, Exec.ok_bind]
  rfl

/-! ## Start and restart -/

def startLogs (dir : Directory) (count : Nat) : List Log :=
  (List.range count).map fun i => ⟨(dir (chunkName i)).getD [], 0⟩

theorem create_file (dir : Directory) (name : List UInt8) : ChunkServer.create dir name name = some ((dir name).getD []) := by
  unfold ChunkServer.create
  cases there : dir name with
  | none => exact Function.update_self _ _ _
  | some bytes => exact there

theorem create_other (dir : Directory) {name other : List UInt8} (apart : other ≠ name) :
    ChunkServer.create dir name other = dir other := by
  unfold ChunkServer.create
  cases dir name with
  | none => exact Function.update_of_ne apart _ _
  | some bytes => rfl

theorem Stores.chunkInit (stores : Stores initial s logs) (few : logs.length < 2 ^ 31)
    (opened : opens s (chunkName logs.length)) : ∃ s', s.chunkInit opens logs.length = .ok s' ∧
      Stores initial s' (logs ++ [⟨(initial (chunkName logs.length)).getD [], 0⟩]) := by
  obtain ⟨_, size, chunks, files, others⟩ := stores
  have same : s.dir (chunkName logs.length) = initial (chunkName logs.length) := by
    apply others
    intro i below equal
    exact Nat.ne_of_gt below (chunkName_inj few (by omega) equal)
  have cases_ (i : Nat) (found : Log) (there : (logs ++ [⟨(initial (chunkName logs.length)).getD [], 0⟩])[i]? = some found) :
      i < logs.length ∧ logs[i]? = some found ∨ i = logs.length ∧ found = ⟨(initial (chunkName logs.length)).getD [], 0⟩ := by
    rw [List.getElem?_append] at there
    split at there
    next below => exact .inl ⟨below, there⟩
    next above =>
      obtain ⟨only, value⟩ := List.getElem?_eq_some_iff.mp there
      rw [List.length_singleton] at only
      refine .inr ⟨by omega, ?_⟩
      rw [← value, List.getElem_singleton]
  refine ⟨⟨ChunkServer.create s.dir (chunkName logs.length),
    s.chunks ++ [some ⟨logs.length, 0, ⟨chunkName logs.length, 0⟩⟩]⟩, ?_, ?_⟩
  · simp only [ChunkServer.chunkInit, Int.natCast_nonneg, if_true, Int.toNat_natCast, Exec.check_eq_ok.mpr opened]
    rfl
  refine ⟨List.length_append.trans_le few, by simp [size], ?_, ?_, ?_⟩
  · intro i found there
    rcases cases_ i found there with ⟨below, old⟩ | ⟨rfl, rfl⟩
    · rw [List.getElem?_append_left (size ▸ below)]
      exact chunks i found old
    · rw [← size]
      exact List.getElem?_concat_length
  · intro i found there
    rcases cases_ i found there with ⟨below, old⟩ | ⟨rfl, rfl⟩
    · have apart : chunkName i ≠ chunkName logs.length := fun equal =>
        Nat.ne_of_lt below (chunkName_inj (by omega) few equal)
      exact (create_other _ apart).trans (files i found old)
    · exact (create_file _ _).trans (by rw [same])
  · intro name apart
    rw [List.length_append, List.length_singleton] at apart
    refine (create_other _ (apart _ (Nat.lt_succ_self _))).trans (others name ?_)
    exact fun i below => apart i (Nat.lt_succ_of_lt below)

theorem chunkServerAlloc_stores (dir : Directory) {count : Nat} (few : count ≤ 2 ^ 31) (opened : OpensAll opens count) :
    ∃ s, ChunkServer.chunkServerAlloc opens dir count = .ok s ∧ Stores dir s (startLogs dir count) := by
  induction count with
  | zero => exact ⟨⟨dir, []⟩, rfl, Nat.zero_le _, rfl, by simp [startLogs], by simp [startLogs], fun _ _ => rfl⟩
  | succ count ih =>
      obtain ⟨s, started, stores⟩ := ih (by omega) fun s i below => opened s i (by omega)
      have length : (startLogs dir count).length = count := by simp [startLogs]
      have next : opens s (chunkName (startLogs dir count).length) := by
        rw [length]
        exact opened s count (Nat.lt_succ_self _) (stores.size.trans length)
      obtain ⟨s', added, kept⟩ := stores.chunkInit (by omega) next
      rw [length] at added kept
      refine ⟨s', ?_, ?_⟩
      · rw [ChunkServer.chunkServerAlloc, List.range_succ, List.foldlM_append]
        refine Exec.bind_eq_ok.mpr ⟨s, started, ?_⟩
        rw [List.foldlM_cons, toSigned_small (by omega), added]
        rfl
      · rw [startLogs, List.range_succ, List.map_append]
        exact kept

theorem Stores.restart (stores : Stores initial s logs) (opened : OpensAll opens logs.length) :
    ∃ s', ChunkServer.chunkServerAlloc opens s.dir s.chunks.length = .ok s' ∧
      Stores initial s' (logs.map fun log => ⟨log.bytes, 0⟩) := by
  have same : startLogs s.dir s.chunks.length = logs.map fun log => ⟨log.bytes, 0⟩ := by
    apply List.ext_getElem?
    intro i
    rw [startLogs, stores.size, List.getElem?_map, List.getElem?_map]
    cases there : logs[i]? with
    | none => rw [List.getElem?_eq_none (by simpa using there)]
              rfl
    | some log =>
        have below : i < logs.length := (List.getElem?_eq_some_iff.mp there).1
        rw [List.getElem?_range below, Option.map_some, Option.map_some, stores.files i log there]
        rfl
  obtain ⟨s', restarted, started⟩ :=
    chunkServerAlloc_stores s.dir (stores.size ▸ stores.few : s.chunks.length ≤ 2 ^ 31) (stores.size ▸ opened)
  rw [same] at started
  refine ⟨s', restarted, started.few, started.size, started.chunks, started.files, ?_⟩
  intro name apart
  rw [started.others name apart]
  rw [List.length_map] at apart
  exact stores.others name apart

/-! ## Runs -/

theorem onChunk_growing {α : Type} (s : ChunkServer) (i : Nat)
    {call : Nat → Chunkserver.Chunk DirFile → Exec Fault (α × Chunkserver.Chunk DirFile)}
    (grows : ∀ blk, Exec.Growing fun fuel => call fuel blk) : Exec.Growing fun fuel => s.onChunk i (call fuel) := by
  unfold ChunkServer.onChunk
  cases s.chunks[i]? with
  | none => exact .const _
  | some chunk =>
      cases chunk with
      | none => exact .const _
      | some blk => exact .bind (grows _) fun _ => .const _

theorem serveChunks_growing (s : ChunkServer) (request : StoreRequest) :
    Exec.Growing (serveChunks opens s request) := by
  cases request with
  | write i pos data =>
      refine .bind (onChunk_growing s i fun blk => ?_) fun _ => .const _
      refine .bind (.loop (fun _ => ?_) _) fun _ => ?_
      · exact .const _
      · exact .const _
  | read i pos buf =>
      refine .bind (onChunk_growing s i fun blk => ?_) fun _ => .const _
      refine .bind (.loop (fun _ => ?_) _) fun _ => ?_
      · exact .const _
      · exact .const _
  | restart => exact .const _

theorem answerLogs_length (logs : List Log) (request : StoreRequest) :
    (answerLogs logs request).2.length = logs.length := by
  cases request with
  | restart => exact List.length_map _
  | write i pos data =>
      simp only [answerLogs]
      cases logs[i]? with
      | none => rfl
      | some log => exact List.length_set
  | read i pos buf =>
      simp only [answerLogs]
      cases logs[i]? with
      | none => rfl
      | some log => exact List.length_set

theorem serveChunks_simulates (initial : Directory) {count : Nat} (opened : OpensAll opens count) :
    Simulates (serveChunks opens) answerLogs AllowedByLogs
      fun s logs => logs.length = count ∧ Stores initial s logs := by
  refine ⟨serveChunks_growing, ?_⟩
  rintro s logs request ⟨rfl, stores⟩ allowed
  rw [answerLogs_length]
  cases request with
  | write i pos data =>
      obtain ⟨below, small⟩ := allowed
      obtain ⟨log, at_⟩ : ∃ log, logs[i]? = some log := ⟨_, List.getElem?_eq_getElem below⟩
      obtain ⟨s', ⟨fuel, runs⟩, kept⟩ := stores.onChunk at_ (fun c d fuel mirrors => chunkWrite_mirrors mirrors data pos fuel)
        (chunkWrite_log i log pos small)
      simp only [answerLogs, at_]
      exact ⟨s', ⟨fuel, Exec.bind_eq_ok.mpr ⟨_, runs, rfl⟩⟩, trivial, kept⟩
  | read i pos buf =>
      obtain ⟨small, log, at_, bytes⟩ := allowed
      obtain ⟨s', ⟨fuel, runs⟩, kept⟩ := stores.onChunk at_ (fun c d fuel mirrors => chunkRead_mirrors mirrors buf pos fuel)
        (chunkRead_log i log small bytes)
      simp only [answerLogs, at_]
      exact ⟨s', ⟨fuel, Exec.bind_eq_ok.mpr ⟨_, runs, rfl⟩⟩, trivial, kept⟩
  | restart =>
      obtain ⟨s', restarted, kept⟩ := stores.restart opened
      exact ⟨s', ⟨0, Exec.bind_eq_ok.mpr ⟨s', restarted, rfl⟩⟩, rfl, kept⟩

end

def dataFor (i : Nat) : StoreRequest → List UInt8
  | .write j _ data => if j = i then data else []
  | _ => []

def writtenTo (i : Nat) (requests : List StoreRequest) : List UInt8 := requests.flatMap (dataFor i)

theorem answerLogs_bytes {logs : List Log} {i : Nat} {log : Log} (at_ : logs[i]? = some log) (request : StoreRequest) :
    ∃ after, (answerLogs logs request).2[i]? = some after ∧ after.bytes = log.bytes ++ dataFor i request := by
  have inside : i < logs.length := (List.getElem?_eq_some_iff.mp at_).1
  cases request with
  | restart => exact ⟨⟨log.bytes, 0⟩, by simp [answerLogs, at_], by simp [dataFor]⟩
  | write j pos data =>
      by_cases here : j = i
      · subst here
        simp only [answerLogs, at_, dataFor, if_true, List.getElem?_set_self inside]
        exact ⟨_, rfl, rfl⟩
      · refine ⟨log, ?_, by simp [dataFor, here]⟩
        simp only [answerLogs]
        cases logs[j]? with
        | none => exact at_
        | some other => rw [List.getElem?_set_ne here, at_]
  | read j pos buf =>
      by_cases here : j = i
      · subst here
        simp only [answerLogs, at_, dataFor, List.getElem?_set_self inside, List.append_nil]
        exact ⟨_, rfl, rfl⟩
      · refine ⟨log, ?_, by simp [dataFor]⟩
        simp only [answerLogs]
        cases logs[j]? with
        | none => exact at_
        | some other => rw [List.getElem?_set_ne here, at_]

theorem answerAll_bytes {logs : List Log} {i : Nat} {log : Log} (at_ : logs[i]? = some log) (requests : List StoreRequest) :
    ∃ after, (answerAll answerLogs logs requests).2[i]? = some after ∧ after.bytes = log.bytes ++ writtenTo i requests := by
  induction requests generalizing logs log with
  | nil => exact ⟨log, at_, by simp [writtenTo]⟩
  | cons request rest ih =>
      obtain ⟨next, there, bytes⟩ := answerLogs_bytes at_ request
      obtain ⟨after, ends, all⟩ := ih there
      refine ⟨after, ends, ?_⟩
      rw [all, bytes, List.append_assoc]
      rfl

theorem answerAll_length (logs : List Log) (requests : List StoreRequest) :
    (answerAll answerLogs logs requests).2.length = logs.length := by
  induction requests generalizing logs with
  | nil => rfl
  | cons request rest ih => exact (ih _).trans (answerLogs_length logs request)

/-- Where every `open` succeeds, the server starts and answers as the logs do. What it leaves on disk is, for each chunk, the file it found
followed by all that was written to the chunk, and every other file as it was. -/
theorem chunk_store_logs {opens : ChunkServer → List UInt8 → Bool} (dir : Directory) {count : Nat}
    (few : count ≤ 2 ^ 31) (opened : OpensAll opens count) {requests : List StoreRequest}
    (allowed : AllAllowed answerLogs AllowedByLogs (startLogs dir count) requests) :
    ∃ start s, ChunkServer.chunkServerAlloc opens dir count = .ok start ∧
      Exec.Returns (serveAll (serveChunks opens) start requests)
        ((answerAll answerLogs (startLogs dir count) requests).1, s) ∧
      (∀ i < count, s.dir (chunkName i) = some ((dir (chunkName i)).getD [] ++ writtenTo i requests)) ∧
      ∀ name, (∀ i < count, name ≠ chunkName i) → s.dir name = dir name := by
  have length : (startLogs dir count).length = count := by simp [startLogs]
  obtain ⟨start, started, fresh⟩ := chunkServerAlloc_stores dir few opened
  obtain ⟨s, returns, _, stores⟩ := (serveChunks_simulates dir opened).run ⟨length, fresh⟩ allowed
  refine ⟨start, s, started, returns, ?_, ?_⟩
  · intro i below
    have at_ : (startLogs dir count)[i]? = some ⟨(dir (chunkName i)).getD [], 0⟩ := by
      rw [startLogs, List.getElem?_map, List.getElem?_range below]
      rfl
    obtain ⟨after, there, bytes⟩ := answerAll_bytes at_ requests
    rw [stores.files i after there, bytes]
  · intro name apart
    apply stores.others
    rw [answerAll_length, length]
    exact apart

-- The second read of chunk 0 starts two bytes before the end, where the write has left the cursor.
def twoChunks : List StoreRequest :=
  [.write 0 0 [1, 2, 3], .write 1 7 [9], .read 0 (2 ^ 64 - 2) [0, 0], .restart, .write 0 0 [4], .restart,
    .read 0 0 [0, 0, 0, 0]]

-- Room for two chunks, where `2.chunk` is a directory.
def twoDescriptors (s : ChunkServer) (name : List UInt8) : Bool := s.chunks.length < 2 && name ≠ chunkName 2

theorem chunk_store_logs_two : AllAllowed answerLogs AllowedByLogs (startLogs emptyDir 2) twoChunks ∧
    ∃ start s, ChunkServer.chunkServerAlloc twoDescriptors emptyDir 2 = .ok start ∧
      Exec.Returns (serveAll (serveChunks twoDescriptors) start twoChunks)
        ([.written 3, .written 1, .filled 2 [2, 3], .restarted, .written 1, .restarted, .filled 4 [1, 2, 3, 4]], s) ∧
      s.dir (chunkName 0) = some [1, 2, 3, 4] ∧ s.dir (chunkName 1) = some [9] := by
  have allowed : AllAllowed answerLogs AllowedByLogs (startLogs emptyDir 2) twoChunks :=
    ⟨⟨by decide, by decide⟩, ⟨by decide, by decide⟩, ⟨by decide, ⟨[1, 2, 3], 3⟩, by decide, .inr (by decide +kernel)⟩,
      trivial, ⟨by decide, by decide⟩, trivial, ⟨by decide, ⟨[1, 2, 3, 4], 0⟩, by decide, .inr (by decide +kernel)⟩, trivial⟩
  have opened : OpensAll twoDescriptors 2 := by
    intro s i below length
    have apart : chunkName i ≠ chunkName 2 := fun same =>
      Nat.ne_of_lt below (chunkName_inj (by omega) (by decide) same)
    simp [twoDescriptors, apart, length, below]
  obtain ⟨start, s, started, returns, files, _⟩ := chunk_store_logs emptyDir (by decide) opened allowed
  have replies : (answerAll answerLogs (startLogs emptyDir 2) twoChunks).1 =
      [.written 3, .written 1, .filled 2 [2, 3], .restarted, .written 1, .restarted, .filled 4 [1, 2, 3, 4]] := by
    decide +kernel
  rw [replies] at returns
  exact ⟨allowed, start, s, started, returns, files 0 (by decide), files 1 (by decide)⟩

end SampleFs.Proof.Chunk

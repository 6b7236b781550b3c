import Mathlib.Data.Finset.Card
import SampleFs.Chunkserver.ChunkCache

namespace SampleFs.Proof.Chunk
open Lib Base Chunkserver

def NamedLikeChunk (name : List UInt8) : Prop := ∃ id, id < 2 ^ 31 ∧ name = chunkName id

section
variable (opens : List UInt8 → Bool) (dir : Directory) (root : List UInt8) (lstat : List UInt8 → Option Stat)

/-- The directory after `chunk_init` for each identifier, with other files that have other names. -/
structure ChunkDirectory (ids : Finset Nat) (names : List (List UInt8)) : Prop where
  small : ∀ id ∈ ids, id < 2 ^ 31
  few : ids.card < vectorCount
  once : names.Nodup
  listed : ∀ id ∈ ids, chunkName id ∈ names
  regular : ∀ id ∈ ids, ∀ path, entryPath root (chunkName id) = .ok path → ∃ size, lstat path = some ⟨true, size⟩
  foreign : ∀ name ∈ names, (∃ id ∈ ids, name = chunkName id) ∨ ¬ NamedLikeChunk name

def Recognised (name : List UInt8) : Prop := ∃ loaded, chunkEntry opens dir root lstat name = .ok (some loaded)

/-- Exactly the chunk files are recognised, and they give exactly their identifiers. -/
structure Recovers (ids : Finset Nat) (names : List (List UInt8)) : Prop where
  files : ∀ name ∈ names, Recognised opens dir root lstat name ↔ ∃ id ∈ ids, name = chunkName id
  parsed : ∀ id ∈ ids, ∀ loaded, chunkEntry opens dir root lstat (chunkName id) = .ok (some loaded) → loaded.chunk.chunkId = id
  loads : ∃ vector, chunkCacheLoad opens dir root lstat names = .ok vector ∧
    ∀ id, id ∈ vector.map (fun loaded => loaded.chunk.chunkId) ↔ id ∈ ids

/-- The entry is `.` or `..`, or its path can be built and it is not a regular file named by digits only. -/
def PassedOver (name : List UInt8) : Prop :=
  isDots name = true ∨ ∃ path, entryPath root name = .ok path ∧
    ∀ st, lstat path = some st → st.isReg = true → isDigit name name.length = false

end

variable {opens : List UInt8 → Bool} {dir : Directory} {root : List UInt8} {lstat : List UInt8 → Option Stat}

theorem dot_mem_chunkName {id : Nat} (small : id < 2 ^ 31) : 46 ∈ chunkName id := by
  have digits : (Nat.toDigits 10 id).length ≤ 10 := by
    rw [Nat.length_toDigits_le_iff (by decide) (by decide)]
    exact small.trans (by decide)
  unfold chunkName
  rw [List.take_of_length_le]
  · exact List.mem_map.mpr ⟨'.', by simp, rfl⟩
  · simp only [List.length_map, List.length_append]
    have suffix : ".chunk".toList.length = 6 := rfl
    omega

theorem chunkName_not_digits {id : Nat} (small : id < 2 ^ 31) :
    isDigit (chunkName id) (chunkName id).length = false := by
  unfold isDigit
  split
  · rfl
  · rw [List.take_length, List.all_eq_false]
    exact ⟨46, dot_mem_chunkName small, by decide⟩

theorem chunkEntry_none {name : List UInt8} :
    chunkEntry opens dir root lstat name = .ok none ↔ PassedOver root lstat name := by
  unfold chunkEntry PassedOver
  by_cases dots : isDots name = true
  · simp [dots]
  · simp only [dots, if_false, false_or, Bool.false_eq_true, Exec.bind_eq_ok]
    constructor
    · rintro ⟨path, built, rest⟩
      refine ⟨path, built, ?_⟩
      intro st there regular
      rw [there] at rest
      by_contra digits
      rw [Bool.not_eq_false] at digits
      simp only [regular, digits, Bool.and_self, if_true] at rest
      obtain ⟨chunk, _, stores⟩ := Exec.bind_eq_ok.mp rest
      cases chunk <;> cases stores
    · rintro ⟨path, built, passed⟩
      refine ⟨path, built, ?_⟩
      cases there : lstat path with
      | none => rfl
      | some st =>
          have refused : (st.isReg && isDigit name name.length) = false := by
            cases regular : st.isReg with
            | false => rfl
            | true => exact passed st there regular
          simp [refused]

theorem not_recognised_chunkName {id : Nat} (small : id < 2 ^ 31) : ¬ Recognised opens dir root lstat (chunkName id) := by
  rintro ⟨loaded, found⟩
  have digits := chunkName_not_digits small
  unfold chunkEntry at found
  split at found
  · cases found
  · obtain ⟨path, _, rest⟩ := Exec.bind_eq_ok.mp found
    split at rest
    · cases rest
    · simp [digits] at rest

theorem loadEntry_passedOver {name : List UInt8} (passed : PassedOver root lstat name) (vector : List LoadedChunk) :
    loadEntry opens dir root lstat vector name = .ok vector := by
  rw [loadEntry, chunkEntry_none.mpr passed]
  rfl

theorem chunkCacheLoad_passedOver {names : List (List UInt8)} (passed : ∀ name ∈ names, PassedOver root lstat name) :
    chunkCacheLoad opens dir root lstat names = .ok [] := by
  apply Exec.foldlM_stays
  intro name member
  exact loadEntry_passedOver (passed name member) []

-- A run of the loop that comes to its end has come to a decision on every entry.
theorem foldlM_decided {names : List (List UInt8)} {vector result : List LoadedChunk}
    (loads : names.foldlM (loadEntry opens dir root lstat) vector = .ok result) :
    ∀ name ∈ names, ∃ decision, chunkEntry opens dir root lstat name = .ok decision := by
  induction names generalizing vector with
  | nil =>
      intro name member
      cases member
  | cons first rest ih =>
      rw [List.foldlM_cons] at loads
      obtain ⟨next, one, others⟩ := Exec.bind_eq_ok.mp loads
      intro name member
      rcases List.mem_cons.mp member with rfl | later
      · obtain ⟨decision, decided, _⟩ := Exec.bind_eq_ok.mp one
        exact ⟨decision, decided⟩
      · exact ih others name later

theorem restart_recognises {ids : Finset Nat} {names : List (List UInt8)}
    (created : ChunkDirectory root lstat ids names) :
    Recovers opens dir root lstat ids names ↔ ids = ∅ ∧ ∀ name ∈ names, PassedOver root lstat name := by
  constructor
  · intro back
    have empty : ids = ∅ := by
      apply Finset.eq_empty_of_forall_notMem
      intro id member
      have file := (back.files _ (created.listed id member)).mpr ⟨id, member, rfl⟩
      exact not_recognised_chunkName (created.small id member) file
    refine ⟨empty, ?_⟩
    intro name member
    obtain ⟨vector, loads, _⟩ := back.loads
    obtain ⟨decision, decided⟩ := foldlM_decided loads name member
    cases decision with
    | none => exact chunkEntry_none.mp decided
    | some loaded =>
        obtain ⟨id, inside, _⟩ := (back.files name member).mp ⟨loaded, decided⟩
        simp [empty] at inside
  · rintro ⟨rfl, passed⟩
    refine ⟨?_, by simp, [], chunkCacheLoad_passedOver passed, by simp⟩
    intro name member
    constructor
    · rintro ⟨loaded, found⟩
      rw [chunkEntry_none.mpr (passed name member)] at found
      cases found
    · rintro ⟨id, inside, _⟩
      simp at inside

abbrev plainFiles : List UInt8 → Option Stat := fun _ => some ⟨true, 0⟩

abbrev oneChunkListing : List (List UInt8) := [[46], [46, 46], chunkName 5]

theorem dots_not_chunk {name : List UInt8} (dots : isDots name = true) : ¬ NamedLikeChunk name := by
  rintro ⟨id, small, rfl⟩
  have long : 6 ≤ (chunkName id).length := by
    simp only [chunkName, List.length_take, List.length_map, List.length_append]
    have tail : ".chunk".toList.length = 6 := rfl
    omega
  rcases of_decide_eq_true dots with same | same
  · simp [same] at long
  · simp [same] at long

theorem oneChunk_created : ChunkDirectory [47] plainFiles {5} oneChunkListing where
  small := by decide
  few := by decide
  once := by decide
  listed := by
    intro id member
    obtain rfl := Finset.mem_singleton.mp member
    simp
  regular := fun _ _ _ _ => ⟨0, rfl⟩
  foreign := by
    intro name member
    simp only [List.mem_cons, List.not_mem_nil, or_false] at member
    rcases member with rfl | rfl | rfl
    · exact .inr (dots_not_chunk rfl)
    · exact .inr (dots_not_chunk rfl)
    · exact .inl ⟨5, Finset.mem_singleton_self 5, rfl⟩

theorem restart_loses_chunk : ChunkDirectory [47] plainFiles {5} oneChunkListing ∧
    chunkCacheLoad (fun _ => true) (fun _ => none) [47] plainFiles oneChunkListing = .ok [] ∧
    ¬ Recovers (fun _ => true) (fun _ => none) [47] plainFiles {5} oneChunkListing := by
  refine ⟨oneChunk_created, rfl, ?_⟩
  intro back
  have file := (back.files (chunkName 5) (by simp)).mpr ⟨5, Finset.mem_singleton_self 5, rfl⟩
  exact not_recognised_chunkName (by decide) file

/-- No chunk, but the directory `12` and the file `log`. -/
abbrev foreignListing : List (List UInt8) := [[46], [46, 46], [49, 50], [108, 111, 103]]

def foreignFiles (path : List UInt8) : Option Stat := some ⟨path ≠ [47, 49, 50], 0⟩

theorem foreign_created : ChunkDirectory [47] foreignFiles ∅ foreignListing := by
  refine ⟨by simp, by decide, by decide, by simp, by simp, ?_⟩
  have noDot {name : List UInt8} (missing : 46 ∉ name) : ¬ NamedLikeChunk name := by
    rintro ⟨id, small, rfl⟩
    exact missing (dot_mem_chunkName small)
  intro name member
  simp only [List.mem_cons, List.not_mem_nil, or_false] at member
  rcases member with rfl | rfl | rfl | rfl
  · exact .inr (dots_not_chunk rfl)
  · exact .inr (dots_not_chunk rfl)
  · exact .inr (noDot (by decide))
  · exact .inr (noDot (by decide))

theorem restart_recognises_none : Recovers (fun _ => true) (fun _ => none) [47] foreignFiles ∅ foreignListing := by
  refine (restart_recognises foreign_created).mpr ⟨rfl, ?_⟩
  intro name member
  simp only [List.mem_cons, List.not_mem_nil, or_false] at member
  rcases member with rfl | rfl | rfl | rfl
  · exact .inl rfl
  · exact .inl rfl
  · refine .inr ⟨_, rfl, ?_⟩
    rintro st ⟨⟩ regular
    exact absurd regular (by decide)
  · exact .inr ⟨_, rfl, fun _ _ _ => rfl⟩

end SampleFs.Proof.Chunk

import SampleFs.Proof.Chunk.Restart

/-!
# Filling the chunk cache

The second loop of `chunk_cache_load` tests `j < i` and counts `i` up. With nothing to fill it is not
entered; otherwise it puts the first chunk until the `size_t` wraps.
-/

namespace SampleFs.Proof.Chunk
open Lib Base Chunkserver

section
variable (format : Nat → Exec Fault (List UInt8)) (opens : List UInt8 → Bool) (dir : Directory)
  (root : List UInt8) (lstat : List UInt8 → Option Stat)

/-- One slot and one put for each recognised entry, in the order of the listing. -/
def FillsCache (names : List (List UInt8)) : Prop :=
  ∃ decisions cc puts, names.mapM (chunkEntry opens dir root lstat) = .ok decisions ∧
    Exec.Returns (chunkCacheLoadAll format opens dir root lstat names) (cc, puts) ∧
    cc.chunks.length = (decisions.filterMap id).length + 1 ∧
    cc.chunks.take (decisions.filterMap id).length = (decisions.filterMap id).map some ∧
    puts = decisions.filterMap id

end

variable {format : Nat → Exec Fault (List UInt8)} {opens : List UInt8 → Bool} {dir : Directory}
  {root : List UInt8} {lstat : List UInt8 → Option Stat} {names : List (List UInt8)}

theorem loadEntry_adds {vector next : List LoadedChunk} {name : List UInt8}
    (loads : loadEntry opens dir root lstat vector name = .ok next) :
    ∃ decision, chunkEntry opens dir root lstat name = .ok decision ∧ next = vector ++ decision.toList ∧
      (vector.length ≤ vectorCount → next.length ≤ vectorCount) := by
  obtain ⟨decision, decided, rest⟩ := Exec.bind_eq_ok.mp loads
  refine ⟨decision, decided, ?_⟩
  cases decision with
  | none =>
      cases rest
      simp
  | some loaded =>
      obtain ⟨_, room, added⟩ := Exec.bind_eq_ok.mp rest
      have less := Exec.check_eq_ok.mp room
      cases added
      refine ⟨rfl, ?_⟩
      intro _
      rw [List.length_append, List.length_singleton]
      omega

theorem chunkCacheLoad_decides {vector result : List LoadedChunk}
    (fits : vector.length ≤ vectorCount)
    (loads : names.foldlM (loadEntry opens dir root lstat) vector = .ok result) :
    ∃ decisions, names.mapM (chunkEntry opens dir root lstat) = .ok decisions ∧
      result = vector ++ decisions.filterMap id ∧ result.length ≤ vectorCount := by
  induction names generalizing vector with
  | nil =>
      cases loads
      exact ⟨[], rfl, by simp, fits⟩
  | cons name rest ih =>
      rw [List.foldlM_cons] at loads
      obtain ⟨next, one, others⟩ := Exec.bind_eq_ok.mp loads
      obtain ⟨decision, decided, added, kept⟩ := loadEntry_adds one
      obtain ⟨decisions, all, appended, bound⟩ := ih (kept fits) others
      refine ⟨decision :: decisions, ?_, ?_, bound⟩
      · rw [List.mapM_cons, decided, Exec.ok_bind, all]
        rfl
      · cases decision <;> simp [appended, added]

theorem decisions_none {decisions : List (Option LoadedChunk)}
    (all : names.mapM (chunkEntry opens dir root lstat) = .ok decisions)
    (nothing : decisions.filterMap id = []) : ∀ name ∈ names, PassedOver root lstat name := by
  induction names generalizing decisions with
  | nil => simp
  | cons name rest ih =>
      rw [List.mapM_cons] at all
      obtain ⟨decision, decided, others⟩ := Exec.bind_eq_ok.mp all
      obtain ⟨later, laterAll, joined⟩ := Exec.bind_eq_ok.mp others
      cases joined
      cases decision with
      | some loaded => simp at nothing
      | none =>
          have restPassed := ih laterAll (by simpa using nothing)
          intro other member
          rcases List.mem_cons.mp member with rfl | inRest
          · exact chunkEntry_none.mp decided
          · exact restPassed other inRest

theorem decisions_passedOver (passed : ∀ name ∈ names, PassedOver root lstat name) :
    ∃ decisions, names.mapM (chunkEntry opens dir root lstat) = .ok decisions ∧
      decisions.filterMap id = [] := by
  obtain ⟨decisions, all, appended, _⟩ :=
    chunkCacheLoad_decides (Nat.zero_le _) (@chunkCacheLoad_passedOver opens dir _ _ _ passed)
  exact ⟨decisions, all, by simpa using appended.symm⟩

theorem fillPass_again {vector puts : List LoadedChunk} {cc : ChunkCache} {i j : Nat}
    {p : Pass FillState (ChunkCache × List LoadedChunk)} (more : j < i)
    (passes : fillPass format vector { i, j, cc, puts } = .ok p) :
    ∃ ck cc', p = .again { i := (i + 1) % 2 ^ 64, j, cc := cc', puts := puts ++ [ck] } := by
  simp only [fillPass, more, if_true] at passes
  split at passes
  · cases passes
  · next ck _ =>
    obtain ⟨_, _, rest⟩ := Exec.bind_eq_ok.mp passes
    obtain ⟨text, _, rest⟩ := Exec.bind_eq_ok.mp rest
    obtain ⟨cache, _, rest⟩ := Exec.bind_eq_ok.mp rest
    cases rest
    exact ⟨ck, _, rfl⟩

-- With something to fill, every pass puts the chunk in slot 0, until `i` comes round to 0.
theorem fillPass_puts {vector puts : List LoadedChunk} {cc start : ChunkCache} {fuel : Nat}
    (some : 0 < vector.length) (few : vector.length ≤ vectorCount)
    (returns : Exec.loop (fillPass format vector) fuel
      { i := vector.length, j := 0, cc := start, puts := [] } = .ok (cc, puts)) :
    puts.length + vector.length = 2 ^ 64 := by
  refine Exec.loop_post (fillPass format vector)
    (fun s => s.j = 0 ∧ (s.puts.length + vector.length = s.i ∧ 0 < s.i ∧ s.i < 2 ^ 64 ∨
      s.i = 0 ∧ s.puts.length + vector.length = 2 ^ 64))
    (fun result => result.2.length + vector.length = 2 ^ 64) ?_ ?_ returns
  · rintro ⟨i, j, cc, puts⟩ p ⟨zero, counted⟩ passes
    simp only at zero counted
    subst zero
    by_cases more : 0 < i
    · obtain ⟨ck, cc', rfl⟩ := fillPass_again more passes
      have before := counted.resolve_right fun wrapped => by omega
      refine ⟨rfl, ?_⟩
      simp only [List.length_append, List.length_singleton]
      omega
    · simp only [fillPass, more, if_false] at passes
      cases passes
      simp only
      omega
  · rw [vectorCount] at few
    exact ⟨rfl, .inl ⟨by simp, some, by simp only; omega⟩⟩

theorem not_fillsCache {decisions : List (Option LoadedChunk)}
    (all : names.mapM (chunkEntry opens dir root lstat) = .ok decisions)
    (some : decisions.filterMap id ≠ []) : ¬ FillsCache format opens dir root lstat names := by
  rintro ⟨same, cc, puts, sameAll, ⟨fuel, returns⟩, _, _, once⟩
  cases all.symm.trans sameAll
  obtain ⟨vector, loads, loops⟩ := Exec.bind_eq_ok.mp returns
  obtain ⟨found, foundAll, appended, few⟩ := chunkCacheLoad_decides (Nat.zero_le _) loads
  cases all.symm.trans foundAll
  rw [List.nil_append] at appended
  have nonempty : 0 < vector.length := by
    rw [appended]
    exact List.length_pos_iff.mpr some
  have sum := fillPass_puts nonempty few loops
  rw [once, ← appended] at sum
  rw [vectorCount] at few
  omega

theorem chunk_cache_load_fills (format : Nat → Exec Fault (List UInt8)) (opens : List UInt8 → Bool)
    (dir : Directory) (root : List UInt8) (lstat : List UInt8 → Option Stat) (names : List (List UInt8)) :
    FillsCache format opens dir root lstat names ↔ ∀ name ∈ names, PassedOver root lstat name := by
  constructor
  · intro fills
    obtain ⟨decisions, cc, puts, all, _⟩ := id fills
    by_contra recognised
    exact not_fillsCache all (fun nothing => recognised (decisions_none all nothing)) fills
  · intro passed
    obtain ⟨decisions, all, nothing⟩ := decisions_passedOver passed
    refine ⟨decisions, chunkCacheNew 1, [], all, ⟨1, ?_⟩, ?_, ?_, ?_⟩
    · rw [chunkCacheLoadAll, chunkCacheLoad_passedOver passed]
      rfl
    · rw [nothing]
      rfl
    · rw [nothing]
      rfl
    · rw [nothing]

theorem chunk_cache_load_one_chunk :
    ¬ FillsCache (fun id => .ok ((Nat.toDigits 10 id).map digitByte)) (fun _ => true) (fun _ => none) [47]
      plainFiles [[55]] :=
  @not_fillsCache _ _ _ _ _ _ [some ⟨⟨7, 0, openChunk (fun _ => none) (chunkName 7)⟩, 0⟩] rfl (by simp)

end SampleFs.Proof.Chunk

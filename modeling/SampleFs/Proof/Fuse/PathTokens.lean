import SampleFs.Proof.Fuse.PathResolution

namespace SampleFs.Proof.Fuse
open Lib SampleFs.Fuse

/-- The length of every token is exact, the two walks along the path end, and the one that looks names up
returns 0 exactly when a component is missing. -/
structure Tokenised (path : List UInt8) : Prop where
  lengths : ∀ q, q <:+ path → Exec.Returns (getPathTokenLen q) (token q).length
  cached : ∀ fs d kids, CacheValid fs d kids → ∃ w, Exec.Returns (getCachedInodeNum d path) w
  lookup : ∀ fs tree d kids, DirectoryTree tree fs → CacheValid fs d kids → path.getD 0 0 = slash →
    PrefixesAreDirs tree rootInodeN (components path) →
      ∃ result d', Exec.Returns (inodeGetIdxByPath fs d path) (result, d') ∧
        (result = 0 ↔ Missing tree rootInodeN (components path))

/-! ## The tokens of the suffixes -/

theorem component_suffix {path c : List UInt8} (member : c ∈ components path) : ∃ q, q <:+ path ∧ token q = c := by
  induction size : path.length using Nat.strong_induction_on generalizing path with
  | _ size ih =>
      subst size
      cases skips : skipTrailingBackslash path with
      | nil =>
          rw [components_nil skips] at member
          cases member
      | cons x rest =>
          have suffix : x :: rest <:+ path := by
            rw [← skips]
            exact List.dropWhile_suffix _
          rw [components_cons skips] at member
          cases member with
          | head => exact ⟨x :: rest, suffix, rfl⟩
          | tail _ later =>
              obtain ⟨q, within, same⟩ := ih _ (afterToken_lt skips) later rfl
              exact ⟨q, (within.trans (List.dropWhile_suffix _)).trans suffix, same⟩

theorem token_cons {x : UInt8} {rest : List UInt8} (other : x ≠ slash) : token (x :: rest) = x :: token rest :=
  List.takeWhile_cons_of_pos (by simpa using other)

theorem afterToken_cons {x : UInt8} {rest : List UInt8} (other : x ≠ slash) :
    afterToken (x :: rest) = afterToken rest :=
  List.dropWhile_cons_of_pos (by simpa using other)

theorem afterToken_of_nil {path : List UInt8} (empty : token path = []) : afterToken path = path := by
  have whole := token_append path
  rwa [empty] at whole

theorem token_suffix {path q : List UInt8} (suffix : q <:+ path) :
    token q = [] ∨ ∃ c ∈ components path, token q <:+ c := by
  induction path with
  | nil =>
      rw [List.suffix_nil.mp suffix]
      exact .inl rfl
  | cons x rest ih =>
      rcases List.suffix_cons_iff.mp suffix with rfl | within
      · by_cases empty : token (x :: rest) = []
        · exact .inl empty
        · refine .inr ⟨_, ?_, List.suffix_rfl⟩
          rw [components_token empty]
          exact List.mem_cons_self ..
      · rcases ih within with empty | ⟨c, member, part⟩
        · exact .inl empty
        · right
          by_cases same : x = slash
          · rw [same, components_slash]
            exact ⟨c, member, part⟩
          · have named : token (x :: rest) ≠ [] := by
              rw [token_cons same]
              exact List.cons_ne_nil _ _
            rw [components_token named, token_cons same, afterToken_cons same]
            by_cases empty : token rest = []
            · rw [afterToken_of_nil empty]
              exact ⟨c, List.mem_cons_of_mem _ member, part⟩
            · rw [components_token empty] at member
              cases member with
              | head => exact ⟨_, List.mem_cons_self .., part.trans (List.suffix_cons x _)⟩
              | tail _ later => exact ⟨c, List.mem_cons_of_mem _ later, part⟩

/-- The index of the loop wraps before it gets to the end of the token. -/
theorem getPathTokenLen_diverges {path : List UInt8} (noNul : 0 ∉ path) (long : 255 < (token path).length) (fuel : Nat) :
    getPathTokenLen path fuel = .timeout := by
  refine Exec.loop_diverges (tokenPass path) (· < 256) ?_ fuel 0 (by decide)
  intro len small
  exact ⟨_, tokenPass_goes noNul (by omega), Nat.mod_lt _ (by decide)⟩

theorem getPathTokenLen_iff {path : List UInt8} (noNul : 0 ∉ path) :
    Exec.Returns (getPathTokenLen path) (token path).length ↔ (token path).length ≤ 255 := by
  constructor
  · rintro ⟨fuel, returns⟩
    by_contra long
    rw [getPathTokenLen_diverges noNul (by omega)] at returns
    cases returns
  · exact getPathTokenLen_returns noNul

theorem path_tokens {path : List UInt8} (noNul : 0 ∉ path) :
    Tokenised path ↔ ∀ c ∈ components path, c.length ≤ 255 := by
  constructor
  · intro tokenised c member
    obtain ⟨q, suffix, rfl⟩ := component_suffix member
    exact (getPathTokenLen_iff fun zero => noNul (suffix.subset zero)).mp (tokenised.lengths q suffix)
  · intro short
    have fits : PathFits path := ⟨noNul, short⟩
    refine ⟨?_, ?_, ?_⟩
    · intro q suffix
      refine (getPathTokenLen_iff fun zero => noNul (suffix.subset zero)).mpr ?_
      rcases token_suffix suffix with empty | ⟨c, member, part⟩
      · rw [empty]
        exact Nat.zero_le _
      · exact part.length_le.trans (short c member)
    · intro fs d kids valid
      have root : Points d none rootInodeN := valid.root
      obtain ⟨w, returns, _⟩ := cached_returns valid fits root
      exact ⟨w, returns⟩
    · intro fs tree d kids wellFormed valid absolute dirs
      obtain ⟨result, walks, _, zero⟩ := wellFormed.walks (by decide) dirs
      obtain ⟨d', returns⟩ := (inodeGetIdxByPath_walks valid absolute fits).mpr walks
      exact ⟨result, d', returns, zero⟩

theorem path_tokens_slashes : Tokenised slashesPath := by
  refine (path_tokens (by decide)).mpr ?_
  rw [components_slashes]
  decide

/-! ## A component of 256 bytes -/

def hugePath : List UInt8 := slash :: List.replicate 256 0x78

theorem path_tokens_huge : 0 ∉ hugePath ∧ ¬ Tokenised hugePath ∧ ∀ fuel,
    getPathTokenLen (List.replicate 256 0x78) fuel = .timeout ∧ getCachedInodeNum inodeInit hugePath fuel = .timeout ∧
      inodeGetIdxByPath treeFs inodeInit hugePath fuel = .timeout := by
  have whole : token (List.replicate 256 0x78) = List.replicate 256 0x78 := by decide +kernel
  have noNul : (0 : UInt8) ∉ List.replicate 256 0x78 := by decide
  have stuck := getPathTokenLen_diverges noNul (by rw [whole, List.length_replicate]; decide)
  have walk (fuel : Nat) : getCachedInodeNum inodeInit hugePath fuel = .timeout := by
    cases fuel with
    | zero => rfl
    | succ fuel =>
        have pass : cachedPass (fuel + 1) ⟨hugePath, none, inodeInit⟩ = .timeout := by
          refine Exec.bind_eq_timeout.mpr (.inl ?_)
          exact stuck (fuel + 1)
        exact Exec.bind_eq_timeout.mpr (.inl pass)
  refine ⟨by decide, ?_, ?_⟩
  · intro tokenised
    obtain ⟨fuel, returns⟩ := tokenised.lengths (List.replicate 256 0x78) (List.suffix_cons ..)
    rw [stuck] at returns
    cases returns
  · intro fuel
    refine ⟨stuck fuel, walk fuel, ?_⟩
    have absolute : hugePath.getD 0 0 = slash := rfl
    rw [inodeGetIdxByPath, Exec.check_pos _ absolute, Exec.ok_bind, walk]
    rfl

end SampleFs.Proof.Fuse

import Mathlib.Data.List.TakeWhile
import SampleFs.Fuse.Lookup
import SampleFs.Proof.Fuse.Layout

namespace SampleFs.Proof.Fuse
open Lib SampleFs.Fuse

/-! ## Components of a path -/

def token (path : List UInt8) : List UInt8 := path.takeWhile (· ≠ slash)
def afterToken (path : List UInt8) : List UInt8 := path.dropWhile (· ≠ slash)

theorem skip_cons_ne {path rest : List UInt8} {c : UInt8} (skips : skipTrailingBackslash path = c :: rest) :
    c ≠ slash := by
  have last := List.head?_dropWhile_not (· = slash) path
  rw [skipTrailingBackslash] at skips
  rw [skips] at last
  simpa using last

theorem length_skip_le (path : List UInt8) : (skipTrailingBackslash path).length ≤ path.length :=
  (List.dropWhile_sublist _).length_le

theorem afterToken_lt {path rest : List UInt8} {c : UInt8} (skips : skipTrailingBackslash path = c :: rest) :
    (afterToken (c :: rest)).length < path.length := by
  have kept : afterToken (c :: rest) = rest.dropWhile (· ≠ slash) := by
    rw [afterToken, List.dropWhile_cons_of_pos (by simpa using skip_cons_ne skips)]
  have shorter := (List.dropWhile_sublist (p := (· ≠ slash)) (l := rest)).length_le
  have le := length_skip_le path
  rw [skips, List.length_cons] at le
  rw [kept]
  omega

def components (path : List UInt8) : List (List UInt8) :=
  match _skips : skipTrailingBackslash path with
  | [] => []
  | c :: rest => token (c :: rest) :: components (afterToken (c :: rest))
termination_by path.length
decreasing_by exact afterToken_lt _skips

theorem components_nil {path : List UInt8} (skips : skipTrailingBackslash path = []) : components path = [] := by
  rw [components]
  split
  next => rfl
  next c rest other =>
    rw [skips] at other
    cases other

theorem components_cons {path rest : List UInt8} {c : UInt8} (skips : skipTrailingBackslash path = c :: rest) :
    components path = token (c :: rest) :: components (afterToken (c :: rest)) := by
  rw [components]
  split
  next other =>
    rw [skips] at other
    cases other
  next c' rest' other =>
    rw [skips] at other
    cases other
    rfl

theorem components_slash (path : List UInt8) : components (slash :: path) = components path := by
  have skips : skipTrailingBackslash (slash :: path) = skipTrailingBackslash path := by
    simp [skipTrailingBackslash]
  cases kept : skipTrailingBackslash path with
  | nil => rw [components_nil kept, components_nil (skips.trans kept)]
  | cons c rest => rw [components_cons kept, components_cons (skips.trans kept)]

/-- A string without NUL whose components fit in a directory entry. -/
structure PathFits (path : List UInt8) : Prop where
  noNul : 0 ∉ path
  short : ∀ c ∈ components path, c.length ≤ 255

theorem token_append (path : List UInt8) : token path ++ afterToken path = path :=
  List.takeWhile_append_dropWhile

theorem drop_length_token (path : List UInt8) : path.drop (token path).length = afterToken path :=
  calc path.drop (token path).length = (token path ++ afterToken path).drop (token path).length := by
        rw [token_append]
    _ = afterToken path := List.drop_left

theorem take_length_token (path : List UInt8) : path.take (token path).length = token path :=
  calc path.take (token path).length = (token path ++ afterToken path).take (token path).length := by
        rw [token_append]
    _ = token path := List.take_left

theorem afterToken_start (path : List UInt8) : (afterToken path).getD 0 0 = slash ∨ afterToken path = [] := by
  cases after : afterToken path with
  | nil => exact .inr rfl
  | cons c rest =>
      have stops := List.head?_dropWhile_not (· ≠ slash) path
      rw [afterToken] at after
      rw [after] at stops
      exact .inl (by simpa using stops)

def skipOne (path : List UInt8) : List UInt8 := if path.getD 0 0 = slash then path.drop 1 else path

theorem length_skipOne_le (path : List UInt8) : (skipOne path).length ≤ path.length := by
  unfold skipOne
  split
  · rw [List.length_drop]
    exact Nat.sub_le _ _
  · exact Nat.le_refl _

theorem afterToken_shorter {path : List UInt8} (some : token path ≠ []) :
    (afterToken path).length < path.length := by
  have split := congrArg List.length (token_append path)
  have positive := List.length_pos_iff.mpr some
  rw [List.length_append] at split
  omega

theorem components_skipOne (path : List UInt8) : components (skipOne path) = components path := by
  unfold skipOne
  split
  next starts =>
    cases path with
    | nil => cases starts
    | cons c rest =>
        rw [show c = slash from starts]
        exact (components_slash rest).symm
  next => rfl

theorem PathFits.skipOne {path : List UInt8} (fits : PathFits path) : PathFits (skipOne path) := by
  refine ⟨?_, ?_⟩
  · intro member
    apply fits.noNul
    unfold Fuse.skipOne at member
    split at member
    · exact List.mem_of_mem_drop member
    · exact member
  · rw [components_skipOne]
    exact fits.short

theorem components_token {path : List UInt8} (some : token path ≠ []) :
    components path = token path :: components (afterToken path) := by
  cases path with
  | nil => exact absurd rfl some
  | cons c rest =>
      have other : c ≠ slash := by
        intro same
        exact some (by rw [token, List.takeWhile_cons_of_neg (by simp [same])])
      exact components_cons (by rw [skipTrailingBackslash, List.dropWhile_cons_of_neg (by simpa using other)])

theorem PathFits.afterToken {path : List UInt8} (fits : PathFits path) (some : token path ≠ []) :
    PathFits (afterToken path) := by
  refine ⟨?_, ?_⟩
  · intro member
    exact fits.noNul ((List.dropWhile_sublist _).subset member)
  · intro c member
    exact fits.short c (by rw [components_token some]; exact List.mem_cons_of_mem _ member)

theorem skip_of_components_nil {path : List UInt8} (none : components path = []) :
    skipTrailingBackslash path = [] := by
  cases skips : skipTrailingBackslash path with
  | nil => rfl
  | cons c rest =>
      rw [components_cons skips] at none
      cases none

theorem components_split {path name : List UInt8} {rest : List (List UInt8)} (fits : PathFits path)
    (split : components path = name :: rest) :
    ∃ q, skipTrailingBackslash path = q ∧ PathFits q ∧ token q ≠ [] ∧ token q = name ∧
      components (afterToken q) = rest ∧ PathFits (afterToken q) := by
  cases skips : skipTrailingBackslash path with
  | nil =>
      rw [components_nil skips] at split
      cases split
  | cons c more =>
      have whole := components_cons skips
      have named : token (c :: more) ≠ [] := by
        rw [token, List.takeWhile_cons_of_pos (by simpa using skip_cons_ne skips)]
        exact List.cons_ne_nil _ _
      have kept : PathFits (c :: more) := by
        refine ⟨?_, ?_⟩
        · rw [← skips]
          exact fun member => fits.noNul ((List.dropWhile_sublist _).subset member)
        · rw [components_token named, ← whole]
          exact fits.short
      rw [split] at whole
      cases whole
      exact ⟨_, rfl, kept, named, rfl, rfl, kept.afterToken named⟩

theorem components_length {path c : List UInt8} (member : c ∈ components path) : c.length ≤ path.length := by
  induction size : path.length using Nat.strong_induction_on generalizing path with
  | _ size ih =>
      subst size
      cases skips : skipTrailingBackslash path with
      | nil =>
          rw [components_nil skips] at member
          cases member
      | cons x rest =>
          rw [components_cons skips] at member
          cases member with
          | head =>
              have kept := length_skip_le path
              rw [skips] at kept
              exact (List.takeWhile_sublist _).length_le.trans kept
          | tail _ later =>
              have shorter := afterToken_lt skips
              exact (ih _ shorter later rfl).trans shorter.le

theorem PathFits.of_length {path : List UInt8} (noNul : 0 ∉ path) (small : path.length ≤ 255) : PathFits path :=
  ⟨noNul, fun _ member => (components_length member).trans small⟩

theorem strchr_slash (path : List UInt8) :
    strchr path slash = some (afterToken path) ∨ strchr path slash = none ∧ afterToken path = [] := by
  unfold strchr
  by_cases there : slash ∈ path
  · rw [if_pos there]
    exact .inl rfl
  · refine .inr ⟨if_neg there, ?_⟩
    apply List.dropWhile_eq_nil_iff.mpr
    intro c member
    simpa using fun same : c = slash => there (same ▸ member)

theorem tokenPass_stops (path : List UInt8) :
    tokenPass path (token path).length = .ok (.done (token path).length) := by
  have here : path.getD (token path).length 0 = (afterToken path).getD 0 0 := by
    rw [← drop_length_token]
    simp
  rw [tokenPass, if_neg]
  · rfl
  · rw [here]
    rintro ⟨other, some⟩
    rcases afterToken_start path with stops | ends
    · exact other stops
    · exact some (by rw [ends]; rfl)

theorem tokenPass_goes {path : List UInt8} (noNul : 0 ∉ path) {len : Nat} (less : len < (token path).length) :
    tokenPass path len = .ok (.again ((len + 1) % 256)) := by
  have here : path.getD len 0 = (token path)[len] := by
    have split : path[len]? = (token path)[len]? := by
      rw [← take_length_token path, List.getElem?_take_of_lt less]
    rw [List.getD_eq_getElem?_getD, split, List.getElem?_eq_getElem less]
    rfl
  have member : (token path)[len] ∈ token path := List.getElem_mem less
  have other : (token path)[len] ≠ slash := by
    simpa using List.mem_takeWhile_imp member
  have some : (token path)[len] ≠ 0 := by
    intro zero
    rw [zero] at member
    exact noNul ((List.takeWhile_sublist _).subset member)
  rw [tokenPass, if_pos]
  · rfl
  · rw [here]
    exact ⟨other, some⟩

theorem getPathTokenLen_returns {path : List UInt8} (noNul : 0 ∉ path) (short : (token path).length ≤ 255) :
    Exec.Returns (getPathTokenLen path) (token path).length := by
  have walk (left len : Nat) (reached : len + left = (token path).length) :
      Exec.Returns (fun fuel => Exec.loop (tokenPass path) fuel len) (token path).length := by
    induction left generalizing len with
    | zero =>
        rw [show len = (token path).length from reached]
        exact Exec.returns_done (tokenPass_stops path)
    | succ left ih =>
        apply Exec.returns_again (tokenPass_goes noNul (by omega))
        rw [Nat.mod_eq_of_lt (by omega)]
        exact ih (len + 1) (by omega)
  exact walk _ 0 (Nat.zero_add _)

theorem PathFits.token {path : List UInt8} (fits : PathFits path) :
    Exec.Returns (getPathTokenLen path) (token path).length := by
  apply getPathTokenLen_returns fits.noNul
  by_cases empty : Fuse.token path = []
  · simp [empty]
  · exact fits.short _ (by rw [components_token empty]; exact List.mem_cons_self ..)

theorem getPathTokenLen_growing (path : List UInt8) : Exec.Growing (getPathTokenLen path) :=
  fun _ _ le => Exec.loop_below (fun _ => .refl _) le 0

/-! ## Names in directories -/

theorem dirCtxUpdate_growing (fs : Fs) (inode : Inode) (lblock : Nat) :
    Exec.Growing (dirCtxUpdate fs inode lblock) := by
  unfold dirCtxUpdate
  exact .bind (inodeGetDataPblock_growing fs inode lblock) fun _ => .const _

theorem inodeDentryGet_growing (fs : Fs) (inode : Inode) (offset : Nat) (ctx : DirCtx) :
    Exec.Growing (inodeDentryGet fs inode offset ctx) := by
  unfold inodeDentryGet
  refine .bind (.const _) fun _ => .ite (.const _) (.ite (.const _) ?_)
  exact .bind (dirCtxUpdate_growing fs inode _) fun _ => .const _

theorem dentryPass_growing (fs : Fs) (inode : Inode) (path : List UInt8) (pathLen : Nat) (s : DirScan) :
    Exec.Growing (fun fuel => dentryPass fs inode path pathLen fuel s) := by
  unfold dentryPass
  exact .bind (inodeDentryGet_growing fs inode s.offset s.ctx) fun _ => .const _

theorem searchDir_growing (fs : Fs) (inodeIdx : Nat) (path : List UInt8) (pathLen : Nat) :
    Exec.Growing (searchDir fs inodeIdx path pathLen) := by
  unfold searchDir
  refine .bind (.const _) fun found => ?_
  cases found with
  | none => exact .const _
  | some inode =>
      refine .bind (dirCtxUpdate_growing fs inode 0) fun ctx => .bind (.loop ?_ _) fun _ => .const _
      exact dentryPass_growing fs inode path pathLen

theorem dentryPass_token (fs : Fs) (inode : Inode) (path : List UInt8) (fuel : Nat) :
    dentryPass fs inode path (token path).length fuel =
      dentryPass fs inode (token path) (token path).length fuel := by
  funext s
  have names (nameLen : Nat) (same : ¬ (token path).length ≠ nameLen) :
      path.take nameLen = (token path).take nameLen := by
    rw [← not_not.mp same, take_length_token, List.take_length]
  unfold dentryPass
  refine congrArg (Bind.bind _) (funext fun found => ?_)
  obtain ⟨dentry, ctx⟩ := found
  cases dentry with
  | none => rfl
  | some pos =>
      refine congrArg (Bind.bind _) (funext fun ino => congrArg (Bind.bind _) (funext fun recLen => ?_))
      refine ite_congr rfl (fun _ => rfl) fun _ => congrArg (Bind.bind _) (funext fun nameLen => ?_)
      refine ite_congr rfl (fun _ => rfl) fun same => congrArg (Bind.bind _) (funext fun _ => ?_)
      rw [names nameLen same]

theorem searchDir_token (fs : Fs) (inodeIdx : Nat) (path : List UInt8) :
    searchDir fs inodeIdx path (token path).length = searchDir fs inodeIdx (token path) (token path).length := by
  funext fuel
  unfold searchDir
  simp only [dentryPass_token]

/-! ## What a path names on disk -/

section
variable (fs : Fs)

def Finds (dir : Nat) (name : List UInt8) (found : Bool × Option Nat) : Prop :=
  Exec.Returns (searchDir fs dir name name.length) found

def Resolves (dir : Nat) (name : List UInt8) (n : Nat) : Prop := ∃ isDir, Finds fs dir name (isDir, some n)

/-- The inode number that a walk through the components ends with, 0 where one is missing. -/
def Walks : (dir : Nat) → (names : List (List UInt8)) → (result : Nat) → Prop
  | dir, [], result => result = dir
  | dir, name :: rest, result => ∃ isDir found, Finds fs dir name (isDir, found) ∧
      match found with
      | none => result = 0
      | some n => Walks n rest result

def Steps : (dir : Nat) → (names : List (List UInt8)) → (last : Nat) → Prop
  | dir, [], last => last = dir
  | dir, name :: rest, last => ∃ n, Resolves fs dir name n ∧ Steps n rest last

end

variable {fs : Fs}

theorem Finds.unique {dir : Nat} {name : List UInt8} {found found' : Bool × Option Nat}
    (left : Finds fs dir name found) (right : Finds fs dir name found') : found = found' :=
  Exec.Returns.unique (searchDir_growing fs dir name name.length) left right

theorem Walks.through {dir last result : Nat} {names rest : List (List UInt8)} (steps : Steps fs dir names last) :
    Walks fs dir (names ++ rest) result ↔ Walks fs last rest result := by
  induction names generalizing dir with
  | nil =>
      rw [show last = dir from steps]
      rfl
  | cons name names ih =>
      obtain ⟨n, ⟨isDir, finds⟩, later⟩ := steps
      rw [← ih later]
      constructor
      · intro walks
        obtain ⟨isDir', found, finds', next⟩ := walks
        cases finds.unique finds'
        exact next
      · intro walks
        exact ⟨isDir, some n, finds, walks⟩

end SampleFs.Proof.Fuse

import SampleFs.Proof.Fuse.Directory

namespace SampleFs.Proof.Fuse
open Lib SampleFs.Fuse

/-! ## One directory -/

def findLive (entries : List Dirent) (name : List UInt8) : Option Nat :=
  (entries.find? fun e => e.Live ∧ e.name = name).map Dirent.inode

theorem findLive_cons (e : Dirent) (rest : List Dirent) (name : List UInt8) :
    findLive (e :: rest) name = if e.Live ∧ e.name = name then some e.inode else findLive rest name := by
  unfold findLive
  by_cases hit : e.Live ∧ e.name = name
  · rw [List.find?_cons_of_pos (by simpa using hit), if_pos hit]
    rfl
  · rw [List.find?_cons_of_neg (by simpa using hit), if_neg hit]

section
variable {fs : Fs} {inode : Inode} {layout : Layout} {n : Nat} {entries : List Dirent}

theorem dentryPass_entry (dir : DirectoryAt fs inode layout n entries) {offset : Nat} {ctx : DirCtx} {e : Dirent}
    {rest : List Dirent} (small : inode.size < 2 ^ 32) (chain : EntriesFrom fs inode layout offset (e :: rest))
    (buffers : Buffers fs inode layout ctx) (name : List UInt8) :
    Exec.Returns (fun fuel => dentryPass fs inode name name.length fuel ⟨offset, ctx⟩)
      (if e.Live ∧ e.name = name then .done (some e.inode)
       else .again ⟨offset + e.recLen, dirCtx fs inode layout (offset / fs.super.blockSize)⟩) := by
  obtain ⟨inside, entry, later⟩ := chain
  have onward : (offset + e.recLen) % 2 ^ 32 = offset + e.recLen := Nat.mod_eq_of_lt (later.le.trans_lt small)
  obtain ⟨fuel, gets⟩ := dir.dentryGet inside buffers
  refine ⟨fuel, ?_⟩
  simp only [dentryPass, gets, entry.load_inode, entry.load_recLen, Exec.ok_bind, onward]
  by_cases live : e.Live
  · have unused : e.inode ≠ 0 := live
    rw [if_neg unused, entry.load_nameLen live, Exec.ok_bind]
    by_cases same : name.length = e.name.length
    · obtain ⟨_, room, _⟩ := entry.named live
      rw [if_neg (not_not.mpr same), Exec.check_pos _ (by rw [length_dirCtx_buf]; exact room), Exec.ok_bind,
        entry.name_slice live, ← same, List.take_length]
      by_cases hit : e.name = name
      · rw [if_neg (not_not.mpr hit), if_pos ⟨live, hit⟩]
        rfl
      · rw [if_pos hit, if_neg fun both => hit both.2]
        rfl
    · rw [if_pos same, if_neg fun both => same (congrArg List.length both.2).symm]
      rfl
  · have unused : e.inode = 0 := not_not.mp live
    rw [if_pos unused, if_neg fun both => live both.1]
    rfl

theorem scan_returns (dir : DirectoryAt fs inode layout n entries) (small : inode.size < 2 ^ 32) {left : List Dirent}
    {offset : Nat} {ctx : DirCtx} (chain : EntriesFrom fs inode layout offset left)
    (buffers : Buffers fs inode layout ctx) (name : List UInt8) :
    Exec.Returns (fun fuel => Exec.loop (dentryPass fs inode name name.length fuel) fuel ⟨offset, ctx⟩)
      (findLive left name) := by
  induction left generalizing offset ctx with
  | nil =>
      obtain rfl : offset = inode.size := chain
      refine (Exec.returns_loop (dentryPass_growing fs inode name name.length)).mpr ⟨.done none, ⟨0, ?_⟩, rfl⟩
      simp only [dentryPass, dentryGet_end]
      rfl
  | cons e rest ih =>
      have pass := dentryPass_entry dir small chain buffers name
      refine (Exec.returns_loop (dentryPass_growing fs inode name name.length)).mpr ⟨_, pass, ?_⟩
      rw [findLive_cons]
      by_cases hit : e.Live ∧ e.name = name
      · simp only [if_pos hit]
      · simp only [if_neg hit]
        exact ih chain.2.2 (dirCtx_buffers _)

theorem DirectoryAt.finds (dir : DirectoryAt fs inode layout n entries) (small : inode.size < 2 ^ 32)
    (name : List UInt8) : Finds fs n name (inode.isDir, findLive entries name) := by
  obtain ⟨ctx, opens, buffers⟩ := dir.opened
  unfold Finds searchDir
  simp only [dir.stored, Exec.ok_bind]
  refine Iff.mpr (Exec.returns_bind_of (dirCtxUpdate_growing fs inode 0) ?_ opens) ?_
  · exact fun _ => .bind (.loop (dentryPass_growing fs inode name name.length) _) fun _ => .const _
  · refine Iff.mpr (Exec.returns_bind_of (.loop (dentryPass_growing fs inode name name.length) _) ?_
      (scan_returns dir small dir.chain buffers name)) ⟨0, rfl⟩
    exact fun _ => .const _

end

/-! ## The tree of directories -/

section
variable (tree : Nat → Option (List Dirent))

def Holds (dir : Nat) (e : Dirent) : Prop := e.Live ∧ ∃ entries, tree dir = some entries ∧ e ∈ entries

def Follows : (dir : Nat) → (names : List (List UInt8)) → (last : Nat) → Prop
  | dir, [], last => last = dir
  | dir, name :: rest, last => ∃ e, Holds tree dir e ∧ e.name = name ∧ Follows e.inode rest last

/-- Some component has no live entry in the directory that the ones before it lead to. -/
def Missing (dir : Nat) (names : List (List UInt8)) : Prop :=
  ∃ before name after last, names = before ++ name :: after ∧ Follows tree dir before last ∧
    ∀ e, Holds tree last e → e.name ≠ name

/-- Where the components before one of them lead, there is a directory. -/
def PrefixesAreDirs (dir : Nat) (names : List (List UInt8)) : Prop :=
  ∀ before name after last, names = before ++ name :: after → Follows tree dir before last → (tree last).isSome

/-- Every directory is well formed and names its live entries apart. -/
structure DirectoryTree (fs : Fs) : Prop where
  stored : ∀ dir entries, tree dir = some entries →
    ∃ inode layout, DirectoryAt fs inode layout dir entries ∧ inode.size < 2 ^ 32
  unique : ∀ dir entries, tree dir = some entries → (liveNames entries).Nodup

end

section
variable {tree : Nat → Option (List Dirent)} {dir last : Nat} {e : Dirent} {rest : List (List UInt8)}

theorem findLive_holds {entries : List Dirent} (listed : tree dir = some entries) {name : List UInt8} {k : Nat}
    (found : findLive entries name = some k) : ∃ e, Holds tree dir e ∧ e.name = name ∧ e.inode = k := by
  obtain ⟨e, stops, same⟩ := Option.map_eq_some_iff.mp found
  have hit : e.Live ∧ e.name = name := by simpa using List.find?_some stops
  exact ⟨e, ⟨hit.1, entries, listed, List.mem_of_find?_eq_some stops⟩, hit.2, same⟩

theorem findLive_none {entries : List Dirent} (listed : tree dir = some entries) {name : List UInt8}
    (found : findLive entries name = none) (e : Dirent) (holds : Holds tree dir e) : e.name ≠ name := by
  obtain ⟨live, others, same, member⟩ := holds
  rw [listed] at same
  cases same
  have misses : ¬ (e.Live ∧ e.name = name) := by
    simpa using List.find?_eq_none.mp (Option.map_eq_none_iff.mp found) e member
  exact fun named => misses ⟨live, named⟩

theorem DirectoryTree.entry_eq {fs : Fs} (wellFormed : DirectoryTree tree fs) {e' : Dirent} (left : Holds tree dir e)
    (right : Holds tree dir e') (same : e.name = e'.name) : e = e' := by
  obtain ⟨live, entries, listed, member⟩ := left
  obtain ⟨live', others, listed', member'⟩ := right
  rw [listed] at listed'
  cases listed'
  refine List.inj_on_of_nodup_map (wellFormed.unique dir entries listed) ?_ ?_ same
  · exact List.mem_filter.mpr ⟨member, by simpa using live⟩
  · exact List.mem_filter.mpr ⟨member', by simpa using live'⟩

theorem DirectoryTree.follows_cons {fs : Fs} (wellFormed : DirectoryTree tree fs) (holds : Holds tree dir e) :
    Follows tree dir (e.name :: rest) last ↔ Follows tree e.inode rest last := by
  constructor
  · intro follows
    obtain ⟨e', holds', named, later⟩ := follows
    rwa [wellFormed.entry_eq holds holds' named.symm]
  · intro later
    exact ⟨e, holds, rfl, later⟩

theorem DirectoryTree.missing_cons {fs : Fs} (wellFormed : DirectoryTree tree fs) (holds : Holds tree dir e) :
    Missing tree dir (e.name :: rest) ↔ Missing tree e.inode rest := by
  constructor
  · intro missing
    obtain ⟨before, name, after, last, split, follows, absent⟩ := missing
    cases before with
    | nil =>
        cases split
        rw [show last = dir from follows] at absent
        exact absurd rfl (absent e holds)
    | cons first before =>
        cases split
        exact ⟨before, name, after, last, rfl, (wellFormed.follows_cons holds).mp follows, absent⟩
  · intro missing
    obtain ⟨before, name, after, last, split, follows, absent⟩ := missing
    exact ⟨e.name :: before, name, after, last, by rw [split]; rfl, (wellFormed.follows_cons holds).mpr follows, absent⟩

theorem PrefixesAreDirs.next (dirs : PrefixesAreDirs tree dir (e.name :: rest)) (holds : Holds tree dir e) :
    PrefixesAreDirs tree e.inode rest := by
  intro before name after last split follows
  exact dirs (e.name :: before) name after last (by rw [split]; rfl) ⟨e, holds, rfl, follows⟩

theorem DirectoryTree.walks {fs : Fs} (wellFormed : DirectoryTree tree fs) {names : List (List UInt8)}
    (nonzero : dir ≠ 0) (dirs : PrefixesAreDirs tree dir names) :
    ∃ result, Walks fs dir names result ∧ (∀ last, Follows tree dir names last ↔ result = last ∧ result ≠ 0) ∧
      (result = 0 ↔ Missing tree dir names) := by
  induction names generalizing dir with
  | nil =>
      refine ⟨dir, rfl, ?_, ?_⟩
      · intro last
        exact ⟨fun same => ⟨Eq.symm same, nonzero⟩, fun same => same.1.symm⟩
      · constructor
        · intro zero
          exact absurd zero nonzero
        · intro missing
          obtain ⟨before, name, after, _, split, _⟩ := missing
          simp at split
  | cons name rest ih =>
      obtain ⟨entries, listed⟩ := Option.isSome_iff_exists.mp (dirs [] name rest dir rfl rfl)
      obtain ⟨inode, layout, directory, small⟩ := wellFormed.stored dir entries listed
      have finds := directory.finds small name
      cases found : findLive entries name with
      | none =>
          have absent := findLive_none listed found
          rw [found] at finds
          refine ⟨0, ⟨_, none, finds, rfl⟩, ?_, ?_⟩
          · intro last
            constructor
            · intro follows
              obtain ⟨e, holds, named, _⟩ := follows
              exact absurd named (absent e holds)
            · intro same
              exact absurd rfl same.2
          · exact ⟨fun _ => ⟨[], name, rest, dir, rfl, rfl, absent⟩, fun _ => rfl⟩
      | some k =>
          obtain ⟨e, holds, rfl, rfl⟩ := findLive_holds listed found
          obtain ⟨result, walks, reaches, zero⟩ := ih holds.1 (dirs.next holds)
          rw [found] at finds
          refine ⟨result, ⟨_, some e.inode, finds, walks⟩, ?_, ?_⟩
          · intro last
            rw [wellFormed.follows_cons holds]
            exact reaches last
          · rw [wellFormed.missing_cons holds]
            exact zero

end

theorem path_resolution {fs : Fs} {tree : Nat → Option (List Dirent)} (wellFormed : DirectoryTree tree fs)
    {path : List UInt8} (absolute : path.getD 0 0 = slash) (fits : PathFits path)
    (dirs : PrefixesAreDirs tree rootInodeN (components path)) :
    ∃ result d', Exec.Returns (inodeGetIdxByPath fs inodeInit path) (result, d') ∧
      (∀ last, Follows tree rootInodeN (components path) last ↔ result = last ∧ result ≠ 0) ∧
      (result = 0 ↔ Missing tree rootInodeN (components path)) := by
  obtain ⟨result, walks, reaches, zero⟩ := wellFormed.walks (by decide) dirs
  obtain ⟨d', returns⟩ := (inodeGetIdxByPath_walks (inodeInit_valid fs) absolute fits).mpr walks
  exact ⟨result, d', returns, reaches, zero⟩

def treeDirs (n : Nat) : Option (List Dirent) :=
  if n = rootInodeN then some treeRoot else if n = 12 then some treeSub else none

theorem treeDirs_wellFormed : DirectoryTree treeDirs treeFs := by
  have cases_ (dir : Nat) (entries : List Dirent) (listed : treeDirs dir = some entries) :
      dir = rootInodeN ∧ entries = treeRoot ∨ dir = 12 ∧ entries = treeSub := by
    unfold treeDirs at listed
    split at listed
    next root =>
      cases listed
      exact .inl ⟨root, rfl⟩
    next =>
      split at listed
      next sub =>
        cases listed
        exact .inr ⟨sub, rfl⟩
      next => cases listed
  refine ⟨?_, ?_⟩
  · intro dir entries listed
    rcases cases_ dir entries listed with ⟨rfl, rfl⟩ | ⟨rfl, rfl⟩
    · exact ⟨_, _, treeRoot_at, by decide⟩
    · exact ⟨_, _, treeSub_at, by decide⟩
  · intro dir entries listed
    rcases cases_ dir entries listed with ⟨rfl, rfl⟩ | ⟨rfl, rfl⟩
    · decide
    · decide

/-- `//b//a/` -/
def slashesPath : List UInt8 := [slash, slash] ++ nameB ++ [slash, slash] ++ nameA ++ [slash]

theorem components_slashes : components slashesPath = [nameB, nameA] := by
  rw [components_cons (by rfl), components_cons (by rfl), components_nil (by rfl)]
  rfl

theorem holds_b : Holds treeDirs rootInodeN ⟨12, 1012, nameB⟩ := ⟨by decide, treeRoot, rfl, by decide⟩

theorem path_resolution_slashes : Follows treeDirs rootInodeN (components slashesPath) 13 ∧
    ∃ result d', Exec.Returns (inodeGetIdxByPath treeFs inodeInit slashesPath) (result, d') ∧
      (∀ last, Follows treeDirs rootInodeN (components slashesPath) last ↔ result = last ∧ result ≠ 0) ∧
      (result = 0 ↔ Missing treeDirs rootInodeN (components slashesPath)) := by
  have fits : PathFits slashesPath := .of_length (by decide) (by decide)
  refine ⟨?_, path_resolution treeDirs_wellFormed rfl fits ?_⟩
  · rw [components_slashes]
    exact ⟨_, holds_b, rfl, ⟨13, 1000, nameA⟩, ⟨by decide, treeSub, rfl, by decide⟩, rfl, rfl⟩
  · rw [components_slashes]
    intro before name after last split follows
    match before, split with
    | [], _ =>
        rw [show last = rootInodeN from follows]
        rfl
    | [first], split =>
        cases split
        have second := (treeDirs_wellFormed.follows_cons holds_b).mp follows
        rw [show last = 12 from second]
        rfl
    | first :: second :: before, split => simp at split

end SampleFs.Proof.Fuse

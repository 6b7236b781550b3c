import SampleFs.Proof.Fuse.Session

namespace SampleFs.Proof.Fuse
open Lib SampleFs.Fuse

/-- What each of a run of reads stores, each from where the one before it ended. -/
def readThrough (fs : Fs) (fh : Nat) : (sizes : List Nat) → (offset fuel : Nat) → Exec Fault (List (List UInt8))
  | [], _, _ => return []
  | size :: rest, offset, fuel => do
      let (_, bytes) ← opRead fs fh size offset fuel
      let parts ← readThrough fs fh rest (offset + bytes.length) fuel
      return bytes :: parts

theorem readThrough_growing (fs : Fs) (fh : Nat) (sizes : List Nat) (offset : Nat) :
    Exec.Growing (readThrough fs fh sizes offset) := by
  induction sizes generalizing offset with
  | nil => exact .const _
  | cons size rest ih =>
      refine .bind (opRead_growing fs fh size offset) fun found => ?_
      exact .bind (ih _) fun _ => .const _

section
variable {fs : Fs} {bufsize fh : Nat} {tree : FileTree} {stat : Stat} {bytes : List UInt8}

theorem Stores.regular_length (stores : Stores fs bufsize tree) (held : tree fh = some ⟨stat, .regular bytes⟩) :
    stat.size = bytes.length ∧ bytes.length ≤ 2 ^ 32 := by
  obtain ⟨inode, raw, at_⟩ := stores.node fh _ held
  have size : stat.size = toSigned 64 inode.size := by
    rw [(decodeInode_ok at_.decoded).2.2]
    exact at_.stat.size
  have content : StoredAs fs bufsize fh inode (.regular bytes) := at_.content
  cases content with
  | regular _ small _ _ =>
      rw [length_fileBytes]
      refine ⟨size.trans (toSigned_small (by omega)), small⟩

theorem Stores.read_file (stores : Stores fs bufsize tree) (held : tree fh = some ⟨stat, .regular bytes⟩) {size offset : Nat}
    (small : size ≤ preadMax) (word : offset < 2 ^ 63) :
    Exec.Returns (SampleFs.Fuse.opRead fs fh size offset) (((bytes.drop offset).take size).length,
      (bytes.drop offset).take size) := by
  have known : fh = 0 ∨ (tree fh).isSome := .inr (by rw [held]; rfl)
  have regular : ∀ node, tree fh = some node → ∃ bytes, node.content = .regular bytes := by
    intro node same
    rw [held] at same
    cases same
    exact ⟨bytes, rfl⟩
  obtain ⟨ret, stored, returns, same⟩ :=
    stores.opRead known small (Int.natCast_nonneg offset) (by omega) regular
  rw [held, Int.toNat_natCast] at same
  cases same
  exact returns

theorem Stores.readThrough (stores : Stores fs bufsize tree) (held : tree fh = some ⟨stat, .regular bytes⟩)
    {sizes : List Nat} (asked : ∀ size ∈ sizes, 0 < size ∧ size ≤ preadMax) {offset : Nat}
    (inside : offset ≤ bytes.length) :
    ∃ parts, Exec.Returns (Fuse.readThrough fs fh sizes offset) parts ∧
      parts.flatten = (bytes.drop offset).take sizes.sum ∧
      (parts.getLast? = some [] → parts.flatten = bytes.drop offset) := by
  induction sizes generalizing offset with
  | nil => exact ⟨[], ⟨0, rfl⟩, by simp, by simp⟩
  | cons size rest ih =>
      obtain ⟨some, small⟩ := asked size List.mem_cons_self
      have bound := (stores.regular_length held).2
      have first := @Stores.read_file _ _ _ _ _ _ stores held size offset small (by omega)
      have length : ((bytes.drop offset).take size).length = min size (bytes.length - offset) := by
        rw [List.length_take, List.length_drop]
      have next : bytes.drop (offset + ((bytes.drop offset).take size).length) = (bytes.drop offset).drop size := by
        rw [List.drop_drop, length]
        by_cases reaches : size ≤ bytes.length - offset
        · rw [Nat.min_eq_left reaches]
        · rw [List.drop_eq_nil_of_le (by omega), List.drop_eq_nil_of_le (by omega)]
      have within : offset + ((bytes.drop offset).take size).length ≤ bytes.length := by omega
      obtain ⟨parts, later, flat, ends⟩ := ih (fun other member => asked other (List.mem_cons_of_mem _ member)) within
      rw [next] at flat ends
      refine ⟨(bytes.drop offset).take size :: parts, ?_, ?_, ?_⟩
      · refine Iff.mpr (Exec.returns_bind_of (opRead_growing fs fh size offset) ?_ first) ?_
        · intro found
          exact .bind (readThrough_growing fs fh rest _) fun _ => .const _
        · refine Iff.mpr (Exec.returns_bind_of (readThrough_growing fs fh rest _) ?_ later) ⟨0, rfl⟩
          exact fun _ => .const _
      · rw [List.flatten_cons, flat, List.sum_cons, List.take_add]
      · intro last
        rw [List.flatten_cons]
        cases parts with
        | nil =>
            have empty : (bytes.drop offset).take size = [] := by simpa using last
            rcases List.take_eq_nil_iff.mp empty with zero | nothing
            · omega
            · rw [nothing]
              simp
        | cons part others =>
            rw [ends (by rwa [List.getLast?_cons_cons] at last), List.take_append_drop]

theorem named_resolve {path : List UInt8} {node : Node} (named : tree.named path = some node) :
    ∃ n, tree.resolve path = some n ∧ tree n = some node :=
  Option.bind_eq_some_iff.mp named

/-- Whoever copies a file gets as many bytes as its size says, and these are the bytes of the file. -/
theorem sequential_reads (stores : Stores fs bufsize tree) {d : Dcache} (valid : ∃ kids, CacheValid fs d kids)
    {path : List UInt8} (kernel : tree.KernelPath path) (named : tree.named path = some ⟨stat, .regular bytes⟩)
    {sizes : List Nat} (asked : ∀ size ∈ sizes, 0 < size ∧ size ≤ preadMax) :
    ∃ stbuf d₁ fh d₂ parts, Exec.Returns (opGetattr fs d path) (0, stbuf, d₁) ∧ stbuf.size = bytes.length ∧
      Exec.Returns (opOpen fs d₁ path 0) (0, some fh, d₂) ∧ Exec.Returns (Fuse.readThrough fs fh sizes 0) parts ∧
      parts.flatten = bytes.take sizes.sum ∧ (parts.getLast? = some [] → parts.flatten = bytes) := by
  obtain ⟨n, reached, held⟩ := named_resolve named
  obtain ⟨d₁, reaches, valid₁⟩ := stores.reaches valid kernel
  obtain ⟨d₂, ⟨fuel, opens⟩, _⟩ := stores.reaches valid₁ kernel
  obtain ⟨ret, stbuf, attributes, same⟩ := stores.opGetattr reaches
  obtain ⟨parts, reads, flat, ends⟩ := stores.readThrough held asked (Nat.zero_le _)
  rw [named] at same
  cases same
  refine ⟨stat, d₁, n, d₂, parts, attributes, (stores.regular_length held).1, ⟨fuel, ?_⟩, reads, flat, ends⟩
  rw [opOpen, if_neg (by decide), opens, reached]
  rfl

end

theorem sequential_reads_text : ∃ stbuf d₁ fh d₂ parts,
    Exec.Returns (opGetattr mountFs inodeInit [slash, 0x61]) (0, stbuf, d₁) ∧
      stbuf.size = ([0x68, 0x65, 0x6c, 0x6c, 0x6f] : List UInt8).length ∧
      Exec.Returns (opOpen mountFs d₁ [slash, 0x61] 0) (0, some fh, d₂) ∧
      Exec.Returns (readThrough mountFs fh [2, 4, 1] 0) parts ∧
      parts.flatten = [0x68, 0x65, 0x6c, 0x6c, 0x6f].take ([2, 4, 1] : List Nat).sum ∧
      (parts.getLast? = some [] → parts.flatten = [0x68, 0x65, 0x6c, 0x6c, 0x6f]) := by
  have split : components [slash, 0x61] = [nameA] := by
    rw [components_cons (by rfl), components_nil (by rfl)]
    rfl
  have kernel : mountTree.KernelPath [slash, 0x61] := by
    refine ⟨rfl, .of_length (by decide) (by decide), ?_⟩
    rw [split]
    exact ⟨_, _, rfl, fun _ _ => trivial⟩
  have named : mountTree.named [slash, 0x61] = mountTree 14 := by
    rw [FileTree.named, FileTree.resolve, split]
    rfl
  exact sequential_reads mountTree_stored ⟨_, inodeInit_valid mountFs⟩ kernel named (by decide)

end SampleFs.Proof.Fuse

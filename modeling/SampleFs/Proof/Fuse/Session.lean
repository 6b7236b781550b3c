import SampleFs.Proof.Fuse.FileTree

namespace SampleFs.Proof.Fuse
open Lib SampleFs.Fuse

/-! ## Inodes -/

theorem inodeGetByNumber_record (fs : Fs) (n : Nat) : inodeGetByNumber fs n = inodeRecordOf fs n >>= fun
    | none => .ok none
    | some raw => decodeInode raw >>= fun inode => .ok (some inode) := by
  unfold inodeGetByNumber inodeRecordOf
  split
  · rfl
  · simp only [bind_assoc, Exec.pure_eq, Exec.ok_bind]

section
variable {fs : Fs} {bufsize n : Nat} {node : Node} {inode : Inode} {raw : List UInt8}

theorem decodeInode_ok (decoded : decodeInode raw = .ok inode) : 112 ≤ raw.length ∧
    inode.mode = recordField raw 0 2 ∧ inode.size = recordField raw 4 4 + 2 ^ 32 * recordField raw 108 4 := by
  obtain ⟨mode, modeLoads, decoded⟩ := Exec.bind_eq_ok.mp decoded
  obtain ⟨sizeLo, lowLoads, decoded⟩ := Exec.bind_eq_ok.mp decoded
  obtain ⟨flags, _, decoded⟩ := Exec.bind_eq_ok.mp decoded
  obtain ⟨sizeHigh, highLoads, decoded⟩ := Exec.bind_eq_ok.mp decoded
  cases decoded
  obtain ⟨_, inside, _⟩ := Exec.bind_eq_ok.mp highLoads
  have length := Exec.check_eq_ok.mp inside
  rw [load_inside (by omega)] at modeLoads lowLoads highLoads
  cases modeLoads
  cases lowLoads
  cases highLoads
  refine ⟨length, rfl, ?_⟩
  simp only [recordField]
  omega

theorem readOnlyMode_testBit {mode : Nat} (small : mode < 2 ^ 16) (i : Nat) :
    (readOnlyMode mode).testBit i = (mode.testBit i && i ≠ 1 && i ≠ 4 && i ≠ 7) := by
  rw [readOnlyMode, Nat.testBit_and]
  by_cases low : i < 16
  · have mask : ∀ j < 16, Nat.testBit 0o177555 j = (decide (j ≠ 1) && decide (j ≠ 4) && decide (j ≠ 7)) := by decide
    rw [mask i low, Bool.and_assoc, Bool.and_assoc, Bool.and_assoc]
  · have zero : mode.testBit i = false :=
      Nat.testBit_lt_two_pow (small.trans_le (Nat.pow_le_pow_right (by decide) (Nat.not_lt.mp low)))
    rw [zero]
    rfl

theorem fillStat_describes {stat : Stat} (decoded : decodeInode raw = .ok inode) (describes : Describes raw stat) :
    fillStat raw = .ok stat := by
  obtain ⟨length, mode, size⟩ := decodeInode_ok decoded
  have field {pos width : Nat} (inside : pos + width ≤ 112) : load raw pos width = .ok (recordField raw pos width) :=
    load_inside (inside.trans length)
  have word : recordField raw 0 2 < 2 ^ 16 := load_lt (field (by decide : 0 + 2 ≤ 112))
  have readOnly : readOnlyMode (recordField raw 0 2) = stat.mode := by
    apply Nat.eq_of_testBit_eq
    intro i
    rw [readOnlyMode_testBit word, describes.mode]
  rw [fillStat, decoded, Exec.ok_bind, field (by decide), Exec.ok_bind, field (by decide), Exec.ok_bind,
    field (by decide), Exec.ok_bind, field (by decide), Exec.ok_bind, field (by decide), Exec.ok_bind,
    field (by decide), Exec.ok_bind, field (by decide), Exec.ok_bind, mode, readOnly, size, ← describes.size,
    ← describes.nlink, ← describes.blocks, ← describes.uid, ← describes.gid, ← describes.atime, ← describes.mtime,
    ← describes.ctime]
  rfl

theorem NodeAt.stored (at_ : NodeAt fs bufsize n node inode raw) : inodeGetByNumber fs n = .ok (some inode) := by
  rw [inodeGetByNumber_record, at_.record]
  simp only [Exec.ok_bind, at_.decoded]

end

/-! ## Paths -/

namespace Stores
variable {fs : Fs} {bufsize : Nat} {tree : FileTree} {dir : Nat} {names rest : List (List UInt8)}

theorem finds (stores : Stores fs bufsize tree) {stat : Stat} {list : List Item}
    (listed : tree dir = some ⟨stat, .directory list⟩) (name : List UInt8) :
    Finds fs dir name (true, child list name) := by
  obtain ⟨inode, raw, at_⟩ := stores.node dir _ listed
  have content : StoredAs fs bufsize dir inode (.directory list) := at_.content
  cases content with
  | directory stored small _ _ =>
      rw [child_items, ← stored.isDir]
      exact stored.finds small name

theorem walks (stores : Stores fs bufsize tree) (dirs : tree.ThroughDirs dir names) :
    Walks fs dir names ((tree.lookup dir names).getD 0) := by
  induction names generalizing dir with
  | nil => rfl
  | cons name rest ih =>
      obtain ⟨stat, list, listed, later⟩ := dirs
      have found := stores.finds listed name
      cases next : child list name with
      | none =>
          rw [next] at found
          refine ⟨true, none, found, ?_⟩
          simp [FileTree.lookup, listed, next]
      | some n =>
          rw [next] at found
          refine ⟨true, some n, found, ?_⟩
          have onward := ih (later n next)
          simpa [FileTree.lookup, listed, next] using onward

theorem lookup_isSome (stores : Stores fs bufsize tree) (start : (tree dir).isSome) {n : Nat}
    (reached : tree.lookup dir names = some n) : (tree n).isSome := by
  induction names generalizing dir with
  | nil =>
      cases reached
      exact start
  | cons name rest ih =>
      rw [FileTree.lookup] at reached
      split at reached
      next stat list listed =>
        split at reached
        next k found =>
          obtain ⟨item, member, _, rfl⟩ := child_mem found
          exact ih (stores.closed dir stat list item listed member) reached
        next => cases reached
      next => cases reached

theorem resolve_isSome (stores : Stores fs bufsize tree) {path : List UInt8} {n : Nat}
    (reached : tree.resolve path = some n) : (tree n).isSome :=
  stores.lookup_isSome stores.root reached

theorem through_steps (stores : Stores fs bufsize tree) {last : Nat} (steps : Steps fs dir names last)
    (dirs : tree.ThroughDirs dir (names ++ rest)) : tree.ThroughDirs last rest := by
  induction names generalizing dir with
  | nil =>
      rw [show last = dir from steps]
      exact dirs
  | cons name names ih =>
      obtain ⟨n, ⟨isDir, resolves⟩, onward⟩ := steps
      obtain ⟨stat, list, listed, later⟩ := dirs
      have same := resolves.unique (stores.finds listed name)
      exact ih onward (later n (Prod.mk.inj same).2.symm)

/-- A walk through directories whose names fit hangs every name under the entry of its own directory. -/
theorem sound (stores : Stores fs bufsize tree) (dirs : tree.ThroughDirs dir names) : Sound fs dir dir names := by
  induction names generalizing dir with
  | nil => trivial
  | cons name rest ih =>
      intro isDir n resolves
      obtain ⟨stat, list, listed, later⟩ := dirs
      have same := resolves.unique (stores.finds listed name)
      obtain ⟨rfl, found⟩ := Prod.mk.inj same
      refine ⟨fun _ => ⟨true, resolves⟩, ?_⟩
      have onward := later n found.symm
      cases rest with
      | nil => trivial
      | cons second rest =>
          obtain ⟨stat', list', listed', _⟩ := onward
          obtain ⟨item, member, rfl, rfl⟩ := child_mem found.symm
          have fits := stores.short dir stat list item stat' list' listed member listed'
          rw [nextAnchor, if_pos rfl, if_neg (by omega)]
          exact ih (later _ found.symm)

theorem soundCall (stores : Stores fs bufsize tree) {d : Dcache} {kids : Nat → List Nat} {path : List UInt8}
    (valid : CacheValid fs d kids) (kernel : tree.KernelPath path) : SoundCall fs d path := by
  intro w last cached points
  have root : Points d none rootInodeN := valid.root
  obtain ⟨w', cached', followed⟩ := cached_returns valid kernel.fits root
  obtain rfl := Exec.Returns.unique (getCachedInodeNum_growing d path) cached cached'
  obtain ⟨names, last', split, steps, points'⟩ := followed.steps
  obtain ⟨name, labelled⟩ := points
  obtain ⟨name', labelled'⟩ := points'
  rw [labelled] at labelled'
  obtain ⟨rfl, _⟩ := Prod.mk.inj (Option.some.inj labelled')
  have dirs := kernel.dirs
  rw [split] at dirs
  exact stores.sound (stores.through_steps steps dirs)

theorem reaches (stores : Stores fs bufsize tree) {d : Dcache} (valid : ∃ kids, CacheValid fs d kids)
    {path : List UInt8} (kernel : tree.KernelPath path) :
    ∃ d', Exec.Returns (inodeGetIdxByPath fs d path) ((tree.resolve path).getD 0, d') ∧
      ∃ kids, CacheValid fs d' kids := by
  obtain ⟨kids, here⟩ := valid
  obtain ⟨d', returns⟩ := (inodeGetIdxByPath_walks here kernel.absolute kernel.fits).mpr (stores.walks kernel.dirs)
  refine ⟨d', returns, lookupStep_valid ⟨kids, here⟩ ⟨stores.soundCall here kernel, kernel.absolute, kernel.fits, returns⟩⟩

/-- A path names a node that is stored, or nothing, and then the lookup ends with inode 0. -/
theorem named_cases (stores : Stores fs bufsize tree) (path : List UInt8) :
    (tree.resolve path = none ∧ tree.named path = none) ∨
      ∃ n node inode raw, tree.resolve path = some n ∧ tree.named path = some node ∧
        NodeAt fs bufsize n node inode raw := by
  cases reached : tree.resolve path with
  | none => exact .inl ⟨rfl, by rw [FileTree.named, reached]; rfl⟩
  | some n =>
      obtain ⟨node, held⟩ := Option.isSome_iff_exists.mp (stores.resolve_isSome reached)
      obtain ⟨inode, raw, at_⟩ := stores.node n node held
      exact .inr ⟨n, node, inode, raw, rfl, by rw [FileTree.named, reached]; exact held, at_⟩

end Stores

/-! ## Requests -/

theorem opGetattr_growing (fs : Fs) (d : Dcache) (path : List UInt8) : Exec.Growing (opGetattr fs d path) := by
  unfold opGetattr
  exact .bind (inodeGetIdxByPath_growing fs d path) fun _ => .const _

theorem opOpen_growing (fs : Fs) (d : Dcache) (path : List UInt8) (flags : Nat) :
    Exec.Growing (opOpen fs d path flags) := by
  unfold opOpen
  exact .ite (.const _) (.bind (inodeGetIdxByPath_growing fs d path) fun _ => .const _)

theorem opReadlink_growing (fs : Fs) (d : Dcache) (path buf : List UInt8) :
    Exec.Growing (opReadlink fs d path buf) := by
  unfold opReadlink
  refine .bind (inodeGetByPath_growing fs d path) ?_
  rintro ⟨_ | inode, d'⟩
  · exact .const _
  · exact .ite (.bind (getLinkDest_growing fs inode buf) fun _ => .const _) (.const _)

theorem e4fOps_growing (fs : Fs) (s : Session) (request : Request) : Exec.Growing (e4fOps fs s request) := by
  cases request with
  | getattr path => exact .bind (opGetattr_growing fs s.dcache path) fun _ => .const _
  | readdir path offset room => exact .bind (opReaddir_growing fs s.dcache path offset room) fun _ => .const _
  | «open» path flags => exact .bind (opOpen_growing fs s.dcache path flags) fun _ => .const _
  | read file size offset =>
      unfold e4fOps
      simp only
      cases s.files[file]? with
      | none => exact .const _
      | some fh => exact .bind (opRead_growing fs fh size offset) fun _ => .const _
  | readlink path buf => exact .bind (opReadlink_growing fs s.dcache path buf) fun _ => .const _

section
variable {fs : Fs} {bufsize : Nat} {tree : FileTree} {d : Dcache} {path : List UInt8}

theorem Stores.opGetattr (stores : Stores fs bufsize tree) {d' : Dcache}
    (reaches : Exec.Returns (inodeGetIdxByPath fs d path) ((tree.resolve path).getD 0, d')) :
    ∃ ret stbuf, Exec.Returns (opGetattr fs d path) (ret, stbuf, d') ∧
      FileTree.nodeStat (tree.named path) = .stat ret stbuf := by
  obtain ⟨fuel, runs⟩ := reaches
  rcases stores.named_cases path with ⟨missing, nothing⟩ | ⟨n, node, inode, raw, reached, named, at_⟩
  · rw [missing] at runs
    refine ⟨-enoent, .zero, ⟨fuel, ?_⟩, by rw [nothing]; rfl⟩
    rw [SampleFs.Fuse.opGetattr, runs]
    rfl
  · rw [reached] at runs
    refine ⟨0, node.stat, ⟨fuel, ?_⟩, by rw [named]; rfl⟩
    rw [SampleFs.Fuse.opGetattr, runs, Exec.ok_bind]
    simp only [Option.getD_some, at_.record, Exec.ok_bind, fillStat_describes at_.decoded at_.stat]
    rfl

theorem Stores.opReaddir (stores : Stores fs bufsize tree) {d' : Dcache} {offset : Nat} (room : Option Nat)
    (reaches : Exec.Returns (inodeGetIdxByPath fs d path) ((tree.resolve path).getD 0, d'))
    (cookie : ∀ node, tree.named path = some node → FileTree.Cookie offset node) :
    ∃ ret filled, Exec.Returns (opReaddir fs d path offset room) (ret, filled, d') ∧
      FileTree.nodeNames offset room (tree.named path) = .names ret filled := by
  rcases stores.named_cases path with ⟨missing, nothing⟩ | ⟨n, node, inode, raw, reached, named, at_⟩
  · rw [missing] at reaches
    obtain ⟨fuel, runs⟩ := reaches
    refine ⟨-enoent, [], ⟨fuel, ?_⟩, by rw [nothing]; rfl⟩
    rw [SampleFs.Fuse.opReaddir, inodeGetByPath, runs]
    rfl
  · rw [reached] at reaches
    obtain ⟨list, content, known⟩ := cookie node named
    have stored := at_.content
    rw [content] at stored
    cases stored with
    | @directory layout entries dir _ printable short =>
        obtain ⟨later, chain, suffix, lists⟩ := dir.chain.from_cookie known
        have returns := dir.opReaddir_returns chain (printable.subset suffix.subset) (short.subset suffix.subset)
          reaches room
        refine ⟨0, _, returns, ?_⟩
        rw [named, ← items_filled, lists]
        cases node
        cases content
        rfl

theorem fileBytes_drop {inode : Inode} {layout : Layout} (start total skip : Nat) :
    (fileBytes fs inode layout start total).drop skip = fileBytes fs inode layout (start + skip) (total - skip) := by
  by_cases inside : skip ≤ total
  · obtain ⟨rest, rfl⟩ := Nat.exists_eq_add_of_le inside
    rw [fileBytes_append, List.drop_left' (length_fileBytes _ _), Nat.add_sub_cancel_left]
  · rw [List.drop_eq_nil_of_le (by rw [length_fileBytes]; omega), Nat.sub_eq_zero_of_le (by omega)]
    rfl

theorem fileBytes_take {inode : Inode} {layout : Layout} (start total size : Nat) :
    (fileBytes fs inode layout start total).take size = fileBytes fs inode layout start (min size total) := by
  by_cases inside : size ≤ total
  · obtain ⟨rest, rfl⟩ := Nat.exists_eq_add_of_le inside
    rw [fileBytes_append, List.take_left' (length_fileBytes _ _), Nat.min_eq_left inside]
  · rw [List.take_of_length_le (by rw [length_fileBytes]; omega), Nat.min_eq_right (by omega)]

theorem mapped_condition {inode : Inode} {layout : Layout} (readable : Readable fs inode layout)
    (small : inode.size ≤ 2 ^ 32)
    (mapped : ∀ lblock, lblock < fs.super.bytes2Blocks inode.size → (layout.pblock fs inode lblock).isSome)
    {size : Nat} (asked : size ≤ preadMax) (offset : Nat) : ReadCondition fs inode layout size offset := by
  obtain ⟨_, positive, _⟩ := blockSize_eq readable
  have within : readLength inode size offset ≤ inode.size - offset := Nat.min_le_right _ _
  refine ⟨?_, ?_, fun _ reached _ => short_runs asked reached⟩
  · intro _ some
    have start : offset / fs.super.blockSize * fs.super.blockSize ≤ offset := Nat.div_mul_le_self _ _
    exact ⟨mapped _ ((lt_bytes2Blocks positive).mpr (by omega)), .inr (by omega)⟩
  · intro lblock _ below hole
    have listed := mapped lblock ((lt_bytes2Blocks positive).mpr (by omega))
    rw [hole] at listed
    cases listed

theorem Stores.opRead (stores : Stores fs bufsize tree) {fh size : Nat} {offset : Int}
    (known : fh = 0 ∨ (tree fh).isSome) (small : size ≤ preadMax) (nonneg : 0 ≤ offset) (word : offset < 2 ^ 63)
    (file : ∀ node, tree fh = some node → ∃ bytes, node.content = .regular bytes) :
    ∃ ret bytes, Exec.Returns (opRead fs fh size offset) (ret, bytes) ∧
      FileTree.nodeData size offset.toNat (tree fh) = .data ret bytes := by
  cases held : tree fh with
  | none =>
      obtain rfl : fh = 0 := by simpa [held] using known
      refine ⟨-enoent, [], ⟨0, ?_⟩, rfl⟩
      rw [SampleFs.Fuse.opRead, Exec.check_pos _ nonneg]
      rfl
  | some node =>
      obtain ⟨inode, raw, at_⟩ := stores.node fh node held
      obtain ⟨bytes, content⟩ := file node held
      have stored := at_.content
      rw [content] at stored
      cases stored with
      | @regular layout readable short mapped _ =>
          have returns := file_read readable at_.stored nonneg word (small.trans_lt (by decide))
            (mapped_condition readable short mapped small offset.toNat)
          refine ⟨_, _, returns, ?_⟩
          cases node
          cases content
          rw [FileTree.nodeData, fileBytes_drop, fileBytes_take, length_fileBytes, Nat.zero_add]
          rfl

theorem takeWhile_target {target buf : List UInt8} (noNul : 0 ∉ target) (starts : target ++ [0] <+: buf) :
    buf.takeWhile (· ≠ 0) = target := by
  obtain ⟨rest, rfl⟩ := starts
  have kept : ∀ c ∈ target, decide (c ≠ 0) = true := by
    intro c member
    exact decide_eq_true fun zero => noNul (zero ▸ member)
  rw [List.append_assoc, List.takeWhile_append_of_pos kept]
  simp

theorem StoredAs.not_link {n : Nat} {inode : Inode} {content : Content} (stored : StoredAs fs bufsize n inode content)
    (other : ∀ target, content ≠ .link target) : inode.isLnk = false := by
  cases stored with
  | directory dir _ _ _ =>
      have isDir := dir.isDir
      simp only [Inode.isDir, beq_iff_eq] at isDir
      simp [Inode.isLnk, isDir]
  | regular _ _ _ plain => exact plain
  | link _ _ _ => exact absurd rfl (other _)
  | special plain => exact plain

theorem Stores.opReadlink (stores : Stores fs bufsize tree) {d' : Dcache} {buf : List UInt8}
    (reaches : Exec.Returns (inodeGetIdxByPath fs d path) ((tree.resolve path).getD 0, d'))
    (exists_ : (tree.named path).isSome) (sized : buf.length = bufsize) :
    ∃ ret buf', Exec.Returns (opReadlink fs d path buf) (ret, buf', d') ∧
      FileTree.nodeTarget (tree.named path) = .target ret (if ret = 0 then buf'.takeWhile (· ≠ 0) else []) := by
  rcases stores.named_cases path with ⟨_, nothing⟩ | ⟨n, ⟨stat, content⟩, inode, raw, reached, named, at_⟩
  · rw [nothing] at exists_
    cases exists_
  · rw [reached] at reaches
    have looked : Exec.Returns (inodeGetByPath fs d path) (some inode, d') := by
      obtain ⟨fuel, runs⟩ := reaches
      refine ⟨fuel, Exec.bind_eq_ok.mpr ⟨_, runs, ?_⟩⟩
      simp only [Option.getD_some, at_.stored, Exec.ok_bind]
      rfl
    rw [named]
    have stored : StoredAs fs bufsize n inode content := at_.content
    by_cases link : ∃ target, content = .link target
    · obtain ⟨target, rfl⟩ := link
      cases stored with
      | @link layout _ at_ room kept =>
          rw [← sized] at room kept
          obtain ⟨buf', returns, starts⟩ := (link_answered looked at_ room).mpr kept
          refine ⟨0, buf', returns, ?_⟩
          rw [if_pos rfl, takeWhile_target at_.noNul starts]
          rfl
    · have other := stored.not_link fun target same => link ⟨target, same⟩
      refine ⟨-einval, buf, (opReadlink_found looked).mpr ⟨rfl, by simp [other]⟩, ?_⟩
      rw [if_neg (by decide)]
      cases content with
      | link target => exact absurd ⟨target, rfl⟩ link
      | directory list => rfl
      | regular bytes => rfl
      | special => rfl

end

/-! ## Sessions -/

/-- The cache tells the truth, and an open file is a node or was opened under no name. -/
structure SessionValid (fs : Fs) (tree : FileTree) (s : Session) (files : List Nat) : Prop where
  cache : ∃ kids, CacheValid fs s.dcache kids
  same : s.files = files
  known : ∀ fh ∈ files, fh = 0 ∨ (tree fh).isSome

theorem Stores.step {fs : Fs} {bufsize : Nat} {tree : FileTree} (stores : Stores fs bufsize tree) {s : Session}
    {files : List Nat} (valid : SessionValid fs tree s files) {request : Request}
    (allowed : tree.Allowed bufsize files request) :
    ∃ s', Exec.Returns (e4fOps fs s request) ((tree.answer files request).1, s') ∧
      SessionValid fs tree s' (tree.answer files request).2 := by
  obtain ⟨cache, rfl, known⟩ := valid
  cases request with
  | getattr path =>
      obtain ⟨d', reaches, kept⟩ := stores.reaches cache allowed
      obtain ⟨ret, stbuf, ⟨fuel, runs⟩, same⟩ := stores.opGetattr reaches
      refine ⟨{ s with dcache := d' }, ⟨fuel, ?_⟩, kept, rfl, known⟩
      rw [FileTree.answer, same, e4fOps, runs]
      rfl
  | readdir path offset room =>
      obtain ⟨kernel, cookie⟩ := allowed
      obtain ⟨d', reaches, kept⟩ := stores.reaches cache kernel
      obtain ⟨ret, filled, ⟨fuel, runs⟩, same⟩ := stores.opReaddir room reaches cookie
      refine ⟨{ s with dcache := d' }, ⟨fuel, ?_⟩, kept, rfl, known⟩
      rw [FileTree.answer, same, e4fOps, runs]
      rfl
  | «open» path flags =>
      by_cases writes : flags % 4 ≠ 0
      · refine ⟨s, ⟨0, ?_⟩, ?_⟩
        · rw [e4fOps, opOpen, FileTree.answer, if_pos writes, if_pos writes]
          simp
        · rw [FileTree.answer, if_pos writes]
          exact ⟨cache, rfl, known⟩
      · obtain ⟨d', ⟨fuel, runs⟩, kept⟩ := stores.reaches cache allowed
        refine ⟨⟨d', s.files ++ [(tree.resolve path).getD 0]⟩, ⟨fuel, ?_⟩, ?_⟩
        · rw [e4fOps, opOpen, FileTree.answer, if_neg writes, if_neg writes, runs]
          rfl
        · rw [FileTree.answer, if_neg writes]
          refine ⟨kept, rfl, List.forall_mem_append.mpr ⟨known, List.forall_mem_singleton.mpr ?_⟩⟩
          cases reached : tree.resolve path with
          | none => exact .inl rfl
          | some n => exact .inr (stores.resolve_isSome reached)
  | read file size offset =>
      obtain ⟨small, nonneg, word, fh, held, regular⟩ := allowed
      obtain ⟨ret, bytes, ⟨fuel, runs⟩, same⟩ :=
        stores.opRead (known fh (List.mem_of_getElem? held)) small nonneg word regular
      refine ⟨s, ⟨fuel, ?_⟩, cache, rfl, known⟩
      have answered : (tree.answer s.files (.read file size offset)).1 = .data ret bytes := by
        rw [FileTree.answer, held]
        exact same
      rw [answered, e4fOps]
      simp only [held, runs]
      rfl
  | readlink path buf =>
      obtain ⟨kernel, named, sized⟩ := allowed
      obtain ⟨d', reaches, kept⟩ := stores.reaches cache kernel
      obtain ⟨ret, buf', ⟨fuel, runs⟩, same⟩ := stores.opReadlink reaches named sized
      refine ⟨{ s with dcache := d' }, ⟨fuel, ?_⟩, kept, rfl, known⟩
      rw [FileTree.answer, same, e4fOps, runs]
      rfl

theorem Stores.simulates {fs : Fs} {bufsize : Nat} {tree : FileTree} (stores : Stores fs bufsize tree) :
    Simulates (e4fOps fs) tree.answer (tree.Allowed bufsize) (SessionValid fs tree) :=
  ⟨e4fOps_growing fs, fun _ _ _ valid allowed => stores.step valid allowed⟩

theorem fuseMain_starts {disk : Disk} {fs : Fs} {s : Session} (mounted : fuseMain disk = .ok (some (fs, s))) :
    s = ⟨inodeInit, []⟩ := by
  obtain ⟨magic, _, checks⟩ := Exec.bind_eq_ok.mp mounted
  split at checks
  · cases checks
  · obtain ⟨fs', _, same⟩ := Exec.bind_eq_ok.mp checks
    cases same
    rfl

/-- Every session on a stored tree is answered as the tree says. -/
theorem session_refines {disk : Disk} {fs : Fs} {s : Session} (mounted : fuseMain disk = .ok (some (fs, s)))
    {bufsize : Nat} {tree : FileTree} (stores : Stores fs bufsize tree) {requests : List Request}
    (allowed : AllAllowed tree.answer (tree.Allowed bufsize) [] requests) :
    ∃ s', Exec.Returns (serveAll (e4fOps fs) s requests) ((answerAll tree.answer [] requests).1, s') := by
  obtain rfl := fuseMain_starts mounted
  have start : SessionValid fs tree ⟨inodeInit, []⟩ [] := ⟨⟨_, inodeInit_valid fs⟩, rfl, by simp⟩
  obtain ⟨s', returns, _⟩ := stores.simulates.run start allowed
  exact ⟨s', returns⟩

/-! ## An image with one node of each kind -/

def nameC : List UInt8 := [0x63]

def textInode : Inode := leafInode 5 [⟨0, 1, 0, 12⟩]
def fastLink : Inode := ⟨0xa1ff, 1, 0, nameA ++ List.replicate 59 0⟩

/-- The root holds the file `a`, the directory `b` with the same file, and the link `c` to `a`. -/
def mountDisk : Disk := smallDisk [inodeAt 2 (dirInode 10), inodeAt 12 (dirInode 11), inodeAt 13 fastLink,
  inodeAt 14 textInode, (10240, dots 2 2 ++ dentry 14 12 nameA ++ [0, 0, 0] ++ dentry 12 12 nameB ++ [0, 0, 0] ++
    dentry 13 976 nameC), (11264, dots 12 2 ++ dentry 14 1000 nameA), (12288, [0x68, 0x65, 0x6c, 0x6c, 0x6f])]

def mountFs : Fs := ⟨mountDisk, smallSuper, [5]⟩

def mountRoot : List Dirent :=
  [⟨2, 12, [0x2e]⟩, ⟨2, 12, [0x2e, 0x2e]⟩, ⟨14, 12, nameA⟩, ⟨12, 12, nameB⟩, ⟨13, 976, nameC⟩]

def mountSub : List Dirent := [⟨12, 12, [0x2e]⟩, ⟨2, 12, [0x2e, 0x2e]⟩, ⟨14, 1000, nameA⟩]

def mountStat (mode : Nat) (size : Int) : Stat := ⟨mode, 0, size, 0, 0, 0, 0, 0, 0⟩

def mountTree : FileTree
  | 2 => some ⟨mountStat 0o40555 1024, .directory (items 0 mountRoot)⟩
  | 12 => some ⟨mountStat 0o40555 1024, .directory (items 0 mountSub)⟩
  | 13 => some ⟨mountStat 0o120555 1, .link nameA⟩
  | 14 => some ⟨mountStat 0o100444 5, .regular [0x68, 0x65, 0x6c, 0x6c, 0x6f]⟩
  | _ => none

theorem mountStat_describes {raw : List UInt8} {mode : Nat} {size : Int} (word : recordField raw 0 2 < 2 ^ 16)
    (readOnly : readOnlyMode (recordField raw 0 2) = mode)
    (long : toSigned 64 (recordField raw 4 4 + 2 ^ 32 * recordField raw 108 4) = size)
    (blank : ∀ field ∈ [(2, 2), (8, 4), (12, 4), (16, 4), (24, 2), (26, 2), (28, 4)],
      recordField raw field.1 field.2 = 0) : Describes raw (mountStat mode size) := by
  simp only [List.forall_mem_cons] at blank
  obtain ⟨uid, atime, ctime, mtime, gid, nlink, blocks, _⟩ := blank
  refine ⟨?_, uid.symm, long.symm, atime.symm, ctime.symm, mtime.symm, gid.symm, nlink.symm, blocks.symm⟩
  intro i
  rw [← readOnlyMode_testBit word, readOnly]
  rfl

theorem mountFs_mounted : fuseMain mountDisk = .ok (some (mountFs, ⟨inodeInit, []⟩)) := by
  have inits : opInit mountDisk = .ok mountFs := opInit_small (by decide +kernel) (by decide +kernel)
  have magic : diskRead mountDisk (bootSectorSize + 56) 2 = .ok [0x53, 0xef] := by decide +kernel
  rw [fuseMain, magic, Exec.ok_bind, if_neg (by decide), inits]
  rfl

theorem mountRoot_at : DirectoryAt mountFs (dirInode 10) (.extents 0 [⟨0, 1, 0, 10⟩]) 2 mountRoot := by
  refine .ofExtent (by decide +kernel) rfl (by decide) (singleExtent_valid (by decide) (by decide +kernel)
    (by decide +kernel) ⟨rfl, by decide, by decide, by decide, by decide⟩) (by decide) (by decide) (by decide) (by decide) ?_
  decide +kernel

theorem mountSub_at : DirectoryAt mountFs (dirInode 11) (.extents 0 [⟨0, 1, 0, 11⟩]) 12 mountSub := by
  refine .ofExtent (by decide +kernel) rfl (by decide) (singleExtent_valid (by decide) (by decide +kernel)
    (by decide +kernel) ⟨rfl, by decide, by decide, by decide, by decide⟩) (by decide) (by decide) (by decide) (by decide) ?_
  decide +kernel

theorem text_stored : StoredAs mountFs 4097 14 textInode (.regular [0x68, 0x65, 0x6c, 0x6c, 0x6f]) := by
  have bytes : fileBytes mountFs textInode (.extents 0 [⟨0, 1, 0, 12⟩]) 0 5 = [0x68, 0x65, 0x6c, 0x6c, 0x6f] := by
    decide +kernel
  have readable : Readable mountFs textInode (.extents 0 [⟨0, 1, 0, 12⟩]) := by
    refine .ofExtent (by decide) (singleExtent_valid (by decide) (by decide +kernel) (by decide +kernel)
      ⟨rfl, by decide, by decide, by decide, by decide⟩) (by decide) (by decide) (by decide)
  rw [← bytes]
  refine .regular readable (by decide) ?_ (by decide)
  intro lblock inside
  have first : lblock < 1 := inside
  rw [pblock_single first]
  rfl

theorem link_stored : StoredAs mountFs 4097 13 fastLink (.link nameA) := by
  have link : LinkAt mountFs fastLink (.extents 0 []) nameA := by
    refine ⟨rfl, rfl, by decide, by decide, fun _ => by decide, ?_⟩
    intro long
    exact absurd long (by decide)
  exact .link link (by decide) (.inl (by decide))

theorem mountTree_stored : Stores mountFs 4097 mountTree := by
  refine ⟨rfl, ?_, ?_, ?_⟩
  · intro n node held
    unfold mountTree at held
    split at held
    · cases held
      refine ⟨dirInode 10, inodeRecord (dirInode 10), by decide +kernel, by decide +kernel,
        mountStat_describes (by decide +kernel) (by decide +kernel) (by decide +kernel) (by decide +kernel), ?_⟩
      exact .directory mountRoot_at (by decide) (by unfold Printable; decide) (by unfold ShortNames; decide)
    · cases held
      refine ⟨dirInode 11, inodeRecord (dirInode 11), by decide +kernel, by decide +kernel,
        mountStat_describes (by decide +kernel) (by decide +kernel) (by decide +kernel) (by decide +kernel), ?_⟩
      exact .directory mountSub_at (by decide) (by unfold Printable; decide) (by unfold ShortNames; decide)
    · cases held
      exact ⟨fastLink, inodeRecord fastLink, by decide +kernel, by decide +kernel,
        mountStat_describes (by decide +kernel) (by decide +kernel) (by decide +kernel) (by decide +kernel), link_stored⟩
    · cases held
      exact ⟨textInode, inodeRecord textInode, by decide +kernel, by decide +kernel,
        mountStat_describes (by decide +kernel) (by decide +kernel) (by decide +kernel) (by decide +kernel), text_stored⟩
    · cases held
  · intro dir stat list item held
    unfold mountTree at held
    split at held <;> cases held
    all_goals
      revert item
      decide
  · intro dir stat list item stat' list' held member below
    clear below
    unfold mountTree at held
    split at held <;> cases held
    all_goals
      revert item
      decide

theorem rootName_kernel {x : UInt8} (fits : PathFits [slash, x]) (single : components [slash, x] = [[x]]) :
    mountTree.KernelPath [slash, x] := by
  refine ⟨rfl, fits, ?_⟩
  rw [single]
  exact ⟨_, _, rfl, fun _ _ => trivial⟩

def mountRequests : List Request :=
  [.getattr [slash], .readdir [slash] 24 (some 2), .open [slash, 0x62, slash, 0x61] 0, .read 0 3 1,
    .readlink [slash, 0x63] (List.replicate 4097 0)]

theorem mountRequests_allowed : AllAllowed mountTree.answer (mountTree.Allowed 4097) [] mountRequests := by
  have root : components [slash] = [] := components_nil (by decide)
  have sub : components [slash, 0x62, slash, 0x61] = [nameB, nameA] := by
    rw [components_cons (by rfl), components_cons (by rfl), components_nil (by rfl)]
    rfl
  have link : components [slash, 0x63] = [nameC] := by
    rw [components_cons (by rfl), components_nil (by rfl)]
    rfl
  have atRoot : mountTree.KernelPath [slash] := ⟨rfl, .of_length (by decide) (by decide), by rw [root]; trivial⟩
  have atSub : mountTree.KernelPath [slash, 0x62, slash, 0x61] := by
    refine ⟨rfl, .of_length (by decide) (by decide), ?_⟩
    rw [sub]
    refine ⟨_, _, rfl, ?_⟩
    intro n found
    obtain rfl : 12 = n := Option.some.inj found
    exact ⟨_, _, rfl, fun _ _ => trivial⟩
  have atLink : mountTree.KernelPath [slash, 0x63] := rootName_kernel (.of_length (by decide) (by decide)) link
  have rootNode : mountTree.named [slash] = mountTree 2 := by
    rw [FileTree.named, FileTree.resolve, root]
    rfl
  have subNode : mountTree.resolve [slash, 0x62, slash, 0x61] = some 14 := by
    rw [FileTree.resolve, sub]
    rfl
  have linkNode : mountTree.named [slash, 0x63] = mountTree 13 := by
    rw [FileTree.named, FileTree.resolve, link]
    rfl
  refine ⟨atRoot, ⟨atRoot, ?_⟩, atSub, ⟨by decide, by decide, by decide, 14, ?_, ?_⟩, ⟨atLink, ?_, List.length_replicate⟩, trivial⟩
  · intro node held
    rw [rootNode] at held
    cases held
    exact ⟨_, rfl, .inr ⟨⟨[0x2e, 0x2e], 24, 2⟩, by decide, rfl⟩⟩
  · simp [FileTree.answer, subNode]
  · intro node held
    cases held
    exact ⟨_, rfl⟩
  · rw [linkNode]
    rfl

theorem session_refines_mount : ∃ s', Exec.Returns (serveAll (e4fOps mountFs) ⟨inodeInit, []⟩ mountRequests)
    ((answerAll mountTree.answer [] mountRequests).1, s') :=
  session_refines mountFs_mounted mountTree_stored mountRequests_allowed

end SampleFs.Proof.Fuse

import SampleFs.Fuse.OpReaddir
import SampleFs.Proof.Fuse.Directory

namespace SampleFs.Proof.Fuse
open Lib SampleFs.Fuse

/-! ## What a directory lists -/

/-- The live entries in order, each with the offset behind it. -/
def listing : (offset : Nat) → (entries : List Dirent) → List Filled
  | _, [] => []
  | offset, e :: rest =>
      if e.Live then ⟨e.name, offset + e.recLen⟩ :: listing (offset + e.recLen) rest
      else listing (offset + e.recLen) rest

/-- What a filler with some room takes when it has taken `used` names before. -/
def accepted (room : Option Nat) : (used : Nat) → (names : List Filled) → List Filled
  | _, [] => []
  | used, name :: rest => if room = some used then [] else name :: accepted room (used + 1) rest

def Printable (entries : List Dirent) : Prop := ∀ e ∈ entries, e.Live → e.name ≠ [] ∧ 0 ∉ e.name

def ShortNames (entries : List Dirent) : Prop := ∀ e ∈ entries, e.Live → e.name.length ≠ ext4NameLen

theorem Printable.subset {left later : List Dirent} (printable : Printable left) (part : later ⊆ left) :
    Printable later := fun e member => printable e (part member)

theorem ShortNames.subset {left later : List Dirent} (short : ShortNames left) (part : later ⊆ left) :
    ShortNames later := fun e member => short e (part member)

theorem listing_names (offset : Nat) (entries : List Dirent) :
    (listing offset entries).map Filled.name = liveNames entries := by
  unfold liveNames
  induction entries generalizing offset with
  | nil => rfl
  | cons e rest ih =>
      by_cases live : e.Live
      · rw [listing, if_pos live, List.map_cons, ih, List.filter_cons_of_pos (by simpa using live)]
        rfl
      · rw [listing, if_neg live, ih, List.filter_cons_of_neg (by simpa using live)]

theorem accepted_none (used : Nat) (names : List Filled) : accepted none used names = names := by
  induction names generalizing used with
  | nil => rfl
  | cons name rest ih => rw [accepted, if_neg (by simp), ih]

theorem accepted_some (used room : Nat) (names : List Filled) :
    accepted (some (used + room)) used names = names.take room := by
  induction names generalizing used room with
  | nil => rw [List.take_nil, accepted]
  | cons name rest ih =>
      cases room with
      | zero => rw [accepted, if_pos (by simp), List.take_zero]
      | succ room =>
          have later : used + (room + 1) = used + 1 + room := by omega
          rw [accepted, if_neg (by simp), later, ih, List.take_succ_cons]

section
variable {fs : Fs} {inode : Inode} {layout : Layout} {n : Nat} {entries left : List Dirent} {offset : Nat}

theorem EntriesFrom.resume (chain : EntriesFrom fs inode layout offset left) {before after : List Filled} {x : Filled}
    (split : listing offset left = before ++ x :: after) :
    ∃ later, EntriesFrom fs inode layout x.offset later ∧ later <:+ left ∧ listing x.offset later = after := by
  induction left generalizing offset before with
  | nil => simp [listing] at split
  | cons e rest ih =>
      obtain ⟨_, _, next⟩ := chain
      rw [listing] at split
      by_cases live : e.Live
      · rw [if_pos live] at split
        cases before with
        | nil =>
            cases split
            exact ⟨rest, next, List.suffix_cons e rest, rfl⟩
        | cons first before =>
            obtain ⟨later, chain', suffix, lists⟩ := ih next (List.cons.inj split).2
            exact ⟨later, chain', suffix.trans (List.suffix_cons e rest), lists⟩
      · rw [if_neg live] at split
        obtain ⟨later, chain', suffix, lists⟩ := ih next split
        exact ⟨later, chain', suffix.trans (List.suffix_cons e rest), lists⟩

/-! ## One call -/

theorem readdirPass_growing (fs : Fs) (inode : Inode) (room : Option Nat) (s : ReaddirLoop) :
    Exec.Growing fun fuel => readdirPass fs inode room fuel s := by
  unfold readdirPass
  exact .bind (inodeDentryGet_growing fs inode s.offset s.ctx) fun _ => .const _

/-- The loop body on an entry, with the state it goes on from. -/
def entryPass (room : Option Nat) (e : Dirent) (s : ReaddirLoop) : Exec Fault (Pass ReaddirLoop (List Filled)) :=
  if ¬ e.Live then .ok (.again s)
  else if e.name.length = ext4NameLen then .fail .outOfBounds
  else if room = some s.filled.length then .ok (.done s.filled)
  else .ok (.again { s with filled := s.filled ++ [⟨e.name, s.offset⟩] })

theorem littleEndian_byte (bytes : List UInt8) (one : bytes.length = 1) : littleEndian bytes ≤ 255 := by
  have bound := littleEndian_lt bytes
  rw [one, Nat.pow_one] at bound
  exact Nat.le_of_lt_succ bound

theorem EntryAt.printableName {e : Dirent} (entry : EntryAt fs inode layout offset e) (live : e.Live) :
    getPrintableName (dirCtx fs inode layout (offset / fs.super.blockSize)).buf (offset % fs.super.blockSize) =
      if e.name.length = ext4NameLen then .fail .outOfBounds else .ok e.name := by
  obtain ⟨size, inside, _⟩ := entry.named live
  have bound : e.name.length ≤ ext4NameLen := by
    rw [← size]
    exact littleEndian_byte _ (length_fileBytes _ _)
  rw [getPrintableName, entry.load_nameLen live, Exec.ok_bind,
    Exec.check_pos _ (by rw [length_dirCtx_buf]; exact inside), Exec.ok_bind, entry.name_slice live]
  by_cases full : e.name.length = ext4NameLen
  · rw [if_pos full, Exec.check_neg _ (by omega)]
    rfl
  · rw [if_neg full, Exec.check_pos _ (by omega)]
    rfl

theorem readdirPass_entry (dir : DirectoryAt fs inode layout n entries) {e : Dirent} (inside : offset < inode.size)
    (entry : EntryAt fs inode layout offset e) (printable : e.Live → e.name ≠ [] ∧ 0 ∉ e.name) {ctx : DirCtx}
    (buffers : Buffers fs inode layout ctx) (room : Option Nat) (filled : List Filled)
    (p : Pass ReaddirLoop (List Filled)) :
    Exec.Returns (fun fuel => readdirPass fs inode room fuel ⟨offset, ctx, filled⟩) p ↔
      entryPass room e ⟨offset + e.recLen, dirCtx fs inode layout (offset / fs.super.blockSize), filled⟩ = .ok p := by
  unfold readdirPass
  refine Iff.trans (Exec.returns_bind_of (inodeDentryGet_growing fs inode offset ctx) ?_
    (dir.dentryGet inside buffers)) ?_
  · exact fun _ => .const _
  simp only [Exec.returns_const, entry.load_inode, entry.load_recLen, Exec.ok_bind]
  refine iff_of_eq (congrArg (· = Exec.ok p) ?_)
  by_cases live : e.Live
  · have used : e.inode ≠ 0 := live
    obtain ⟨some, noNul⟩ := printable live
    rw [if_neg used, entry.printableName live, entryPass, if_neg (not_not.mpr live)]
    by_cases full : e.name.length = ext4NameLen
    · rw [if_pos full, if_pos full]
      rfl
    · have starts : e.name.headD 0 ≠ 0 := by
        cases named : e.name with
        | nil => exact absurd named some
        | cons c rest =>
            rw [named] at noNul
            exact fun zero => noNul (by rw [← show c = 0 from zero]; exact List.mem_cons_self ..)
      have whole : e.name.takeWhile (· ≠ 0) = e.name := by
        apply List.takeWhile_eq_self_iff.mpr
        intro c member
        simpa using fun zero : c = 0 => noNul (zero ▸ member)
      rw [if_neg full, if_neg full, Exec.ok_bind, if_neg starts, filler, whole]
      by_cases stops : room = Option.some filled.length
      · rw [if_pos stops, if_pos stops]
        rfl
      · rw [if_neg stops, if_neg stops]
        rfl
  · have unused : e.inode = 0 := not_not.mp live
    rw [if_pos unused, entryPass, if_pos live]
    rfl

theorem readdirPass_end (ctx : DirCtx) (room : Option Nat) (filled : List Filled) :
    Exec.Returns (fun fuel => readdirPass fs inode room fuel ⟨inode.size, ctx, filled⟩) (.done filled) := by
  refine ⟨0, ?_⟩
  simp only [readdirPass, dentryGet_end]
  rfl

theorem readdir_returns (dir : DirectoryAt fs inode layout n entries) (chain : EntriesFrom fs inode layout offset left)
    (printable : Printable left) (short : ShortNames left) {ctx : DirCtx} (buffers : Buffers fs inode layout ctx)
    (room : Option Nat) (filled : List Filled) :
    Exec.Returns (fun fuel => Exec.loop (readdirPass fs inode room fuel) fuel ⟨offset, ctx, filled⟩)
      (filled ++ accepted room filled.length (listing offset left)) := by
  induction left generalizing offset ctx filled with
  | nil =>
      obtain rfl : offset = inode.size := chain
      rw [listing, accepted, List.append_nil]
      exact (Exec.returns_loop (readdirPass_growing fs inode room)).mpr ⟨_, readdirPass_end ctx room filled, rfl⟩
  | cons e rest ih =>
      obtain ⟨inside, entry, next⟩ := chain
      have step := readdirPass_entry dir inside entry (printable e (List.mem_cons_self ..)) buffers room filled
      have later := ih next (printable.subset (List.subset_cons_self e rest))
        (short.subset (List.subset_cons_self e rest)) (dirCtx_buffers (offset / fs.super.blockSize))
      rw [listing]
      by_cases live : e.Live
      · have fits := short e (List.mem_cons_self ..) live
        rw [if_pos live, accepted]
        by_cases stops : room = some filled.length
        · rw [if_pos stops, List.append_nil]
          refine (Exec.returns_loop (readdirPass_growing fs inode room)).mpr ⟨.done filled, (step _).mpr ?_, rfl⟩
          rw [entryPass, if_neg (not_not.mpr live), if_neg fits, if_pos stops]
        · rw [if_neg stops]
          refine (Exec.returns_loop (readdirPass_growing fs inode room)).mpr
            ⟨.again ⟨offset + e.recLen, dirCtx fs inode layout (offset / fs.super.blockSize),
              filled ++ [⟨e.name, offset + e.recLen⟩]⟩, (step _).mpr ?_, ?_⟩
          · rw [entryPass, if_neg (not_not.mpr live), if_neg fits, if_neg stops]
          · have goes := later (filled ++ [⟨e.name, offset + e.recLen⟩])
            rwa [List.length_append, List.append_assoc] at goes
      · rw [if_neg live]
        refine (Exec.returns_loop (readdirPass_growing fs inode room)).mpr
          ⟨.again ⟨offset + e.recLen, dirCtx fs inode layout (offset / fs.super.blockSize), filled⟩,
            (step _).mpr ?_, later filled⟩
        rw [entryPass, if_pos live]

/-- A filler that takes everything is handed every live name, so each has to fit in `name_buf`. -/
theorem readdir_short (dir : DirectoryAt fs inode layout n entries) (chain : EntriesFrom fs inode layout offset left)
    (printable : Printable left) {ctx : DirCtx} (buffers : Buffers fs inode layout ctx) {filled result : List Filled}
    (returns : Exec.Returns (fun fuel => Exec.loop (readdirPass fs inode none fuel) fuel ⟨offset, ctx, filled⟩) result) :
    ShortNames left := by
  induction left generalizing offset ctx filled with
  | nil =>
      intro e member
      cases member
  | cons e rest ih =>
      obtain ⟨inside, entry, next⟩ := chain
      obtain ⟨p, pass, goes⟩ := (Exec.returns_loop (readdirPass_growing fs inode none)).mp returns
      have step := (readdirPass_entry dir inside entry (printable e (List.mem_cons_self ..)) buffers none filled p).mp pass
      have others := printable.subset (List.subset_cons_self e rest)
      unfold entryPass at step
      by_cases live : e.Live
      · rw [if_neg (not_not.mpr live)] at step
        by_cases full : e.name.length = ext4NameLen
        · rw [if_pos full] at step
          cases step
        · rw [if_neg full, if_neg (by simp)] at step
          cases step
          have later := ih next others (dirCtx_buffers _) goes
          exact List.forall_mem_cons.mpr ⟨fun _ => full, later⟩
      · rw [if_pos live] at step
        cases step
        have later := ih next others (dirCtx_buffers _) goes
        exact List.forall_mem_cons.mpr ⟨fun live' => absurd live' live, later⟩

theorem readdirFrom_growing (fs : Fs) (inode : Inode) (offset : Nat) (room : Option Nat) :
    Exec.Growing (readdirFrom fs inode offset room) := by
  unfold readdirFrom
  refine .bind (dirCtxUpdate_growing fs inode 0) fun ctx => .loop ?_ _
  exact readdirPass_growing fs inode room

theorem DirectoryAt.readdirFrom_iff (dir : DirectoryAt fs inode layout n entries) :
    ∃ ctx, Buffers fs inode layout ctx ∧ ∀ offset room filled, Exec.Returns (readdirFrom fs inode offset room) filled ↔
      Exec.Returns (fun fuel => Exec.loop (readdirPass fs inode room fuel) fuel ⟨offset, ctx, []⟩) filled := by
  obtain ⟨ctx, opens, buffers⟩ := dir.opened
  refine ⟨ctx, buffers, ?_⟩
  intro offset room filled
  refine Exec.returns_bind_of (dirCtxUpdate_growing fs inode 0) ?_ opens
  exact fun _ => .loop (readdirPass_growing fs inode room) _

theorem inodeGetByPath_growing (fs : Fs) (d : Dcache) (path : List UInt8) :
    Exec.Growing (inodeGetByPath fs d path) := by
  unfold inodeGetByPath
  exact .bind (inodeGetIdxByPath_growing fs d path) fun _ => .const _

theorem opReaddir_found {fs : Fs} {inode : Inode} {d d' : Dcache} {path : List UInt8} {n : Nat}
    (stored : inodeGetByNumber fs n = .ok (some inode)) (reaches : Exec.Returns (inodeGetIdxByPath fs d path) (n, d'))
    (offset : Nat) (room : Option Nat) (filled : List Filled) :
    Exec.Returns (opReaddir fs d path offset room) (0, filled, d') ↔
      Exec.Returns (readdirFrom fs inode offset room) filled := by
  have found : Exec.Returns (inodeGetByPath fs d path) (some inode, d') := by
    obtain ⟨fuel, runs⟩ := reaches
    exact ⟨fuel, Exec.bind_eq_ok.mpr ⟨_, runs, by simp only [stored]; rfl⟩⟩
  unfold opReaddir
  refine Iff.trans (Exec.returns_bind_of (inodeGetByPath_growing fs d path) ?_ found) ?_
  · rintro ⟨_ | other, d'⟩
    · exact .const _
    · exact .bind (readdirFrom_growing fs other offset room) fun _ => .const _
  · refine Iff.trans (Exec.returns_bind (readdirFrom_growing fs inode offset room) ?_) ?_
    · exact fun _ => .const _
    · simp

/-! ## Paging -/

/-- A call as the kernel makes it: in some state of the cache, with some path to the directory, and
with room for some names. -/
structure ReaddirCall where
  d : Dcache
  path : List UInt8
  room : Nat

/-- What each call of a run hands over, each from the offset passed with the last name before it. -/
def readdirPages (fs : Fs) : (calls : List ReaddirCall) → (offset fuel : Nat) → Exec Fault (List (List Filled))
  | [], _, _ => return []
  | call :: rest, offset, fuel => do
      let (_, filled, _) ← opReaddir fs call.d call.path offset (some call.room) fuel
      let pages ← readdirPages fs rest ((filled.getLast?.map Filled.offset).getD offset) fuel
      return filled :: pages

def Reaches (fs : Fs) (n : Nat) (d : Dcache) (path : List UInt8) : Prop :=
  ∃ d', Exec.Returns (inodeGetIdxByPath fs d path) (n, d')

/-- Every run of calls hands over the names in order, as many as there is room for, a run that ends with
an empty page all of them, and a call without a limit all of them at once. -/
def ListsDirectory (fs : Fs) (n : Nat) (names : List (List UInt8)) : Prop :=
  ∃ full : List Filled, full.map Filled.name = names ∧
    (∀ calls : List ReaddirCall, (∀ call ∈ calls, Reaches fs n call.d call.path ∧ 0 < call.room) →
      ∃ pages, Exec.Returns (readdirPages fs calls 0) pages ∧
        pages.flatten = full.take (calls.map ReaddirCall.room).sum ∧
        (pages.getLast? = some [] → pages.flatten = full)) ∧
    ∀ d path d', Exec.Returns (inodeGetIdxByPath fs d path) (n, d') →
      Exec.Returns (opReaddir fs d path 0 none) (0, full, d')

theorem opReaddir_growing (fs : Fs) (d : Dcache) (path : List UInt8) (offset : Nat) (room : Option Nat) :
    Exec.Growing (opReaddir fs d path offset room) := by
  unfold opReaddir
  refine .bind (inodeGetByPath_growing fs d path) ?_
  rintro ⟨_ | other, d'⟩
  · exact .const _
  · exact .bind (readdirFrom_growing fs other offset room) fun _ => .const _

theorem readdirPages_growing (fs : Fs) (calls : List ReaddirCall) (offset : Nat) :
    Exec.Growing (readdirPages fs calls offset) := by
  induction calls generalizing offset with
  | nil => exact .const _
  | cons call rest ih =>
      refine .bind (opReaddir_growing fs call.d call.path offset (some call.room)) ?_
      intro found
      exact .bind (ih _) fun _ => .const _

theorem DirectoryAt.opReaddir_returns (dir : DirectoryAt fs inode layout n entries)
    (chain : EntriesFrom fs inode layout offset left) (printable : Printable left) (short : ShortNames left)
    {d d' : Dcache} {path : List UInt8} (reaches : Exec.Returns (inodeGetIdxByPath fs d path) (n, d'))
    (room : Option Nat) :
    Exec.Returns (opReaddir fs d path offset room) (0, accepted room 0 (listing offset left), d') := by
  obtain ⟨ctx, buffers, loops⟩ := dir.readdirFrom_iff
  rw [opReaddir_found dir.stored reaches, loops]
  exact readdir_returns dir chain printable short buffers room []

theorem EntriesFrom.next_page (chain : EntriesFrom fs inode layout offset left) {room : Nat} (some : 0 < room) :
    ∃ offset' later, ((((listing offset left).take room).getLast?.map Filled.offset).getD offset = offset') ∧
      EntriesFrom fs inode layout offset' later ∧ later <:+ left ∧
      listing offset' later = (listing offset left).drop room := by
  cases last : ((listing offset left).take room).getLast? with
  | none =>
      have nothing : listing offset left = [] := by
        have empty := List.getLast?_eq_none_iff.mp last
        rcases List.take_eq_nil_iff.mp empty with zero | nothing
        · omega
        · exact nothing
      refine ⟨offset, left, rfl, chain, List.suffix_rfl, ?_⟩
      rw [nothing, List.drop_nil]
  | some x =>
      obtain ⟨before, page⟩ := List.getLast?_eq_some_iff.mp last
      have split : listing offset left = before ++ x :: (listing offset left).drop room := by
        calc listing offset left = (listing offset left).take room ++ (listing offset left).drop room :=
              (List.take_append_drop ..).symm
          _ = before ++ x :: (listing offset left).drop room := by rw [page, List.append_assoc]; rfl
      obtain ⟨later, chain', suffix, lists⟩ := chain.resume split
      exact ⟨x.offset, later, rfl, chain', suffix, lists⟩

theorem readdirPages_returns (dir : DirectoryAt fs inode layout n entries) (calls : List ReaddirCall)
    (made : ∀ call ∈ calls, Reaches fs n call.d call.path ∧ 0 < call.room)
    (chain : EntriesFrom fs inode layout offset left) (printable : Printable left) (short : ShortNames left) :
    ∃ pages, Exec.Returns (readdirPages fs calls offset) pages ∧
      pages.flatten = (listing offset left).take (calls.map ReaddirCall.room).sum ∧
      (pages.getLast? = some [] → pages.flatten = listing offset left) := by
  induction calls generalizing offset left with
  | nil => exact ⟨[], ⟨0, rfl⟩, by simp, by simp⟩
  | cons call rest ih =>
      obtain ⟨⟨d', reaches⟩, some⟩ := made call (List.mem_cons_self ..)
      obtain ⟨offset', later, starts, chain', suffix, goes⟩ := chain.next_page some
      obtain ⟨pages, returns, flat, ends⟩ := ih (fun other member => made other (List.mem_cons_of_mem _ member)) chain'
        (printable.subset suffix.subset) (short.subset suffix.subset)
      have page := dir.opReaddir_returns chain printable short reaches (Option.some call.room)
      have taken : accepted (Option.some call.room) 0 (listing offset left) = (listing offset left).take call.room := by
        simpa using accepted_some 0 call.room (listing offset left)
      rw [taken] at page
      rw [goes] at flat ends
      refine ⟨(listing offset left).take call.room :: pages, ?_, ?_, ?_⟩
      · refine Iff.mpr (Exec.returns_bind_of (opReaddir_growing fs call.d call.path offset (Option.some call.room)) ?_
          page) ?_
        · intro found
          exact .bind (readdirPages_growing fs rest _) fun _ => .const _
        · simp only [starts]
          refine Iff.mpr (Exec.returns_bind_of (readdirPages_growing fs rest offset') ?_ returns) ⟨0, rfl⟩
          exact fun _ => .const _
      · rw [List.flatten_cons, flat, List.map_cons, List.sum_cons, List.take_add]
      · intro last
        rw [List.flatten_cons]
        cases pages with
        | nil =>
            have empty : (listing offset left).take call.room = [] := by simpa using last
            rcases List.take_eq_nil_iff.mp empty with zero | nothing
            · omega
            · rw [nothing]
              simp
        | cons first others =>
            rw [ends (by rwa [List.getLast?_cons_cons] at last), List.take_append_drop]

theorem ListsDirectory.short (dir : DirectoryAt fs inode layout n entries) (printable : Printable entries) {d : Dcache}
    {path : List UInt8} (reaches : Reaches fs n d path) (lists : ListsDirectory fs n (liveNames entries)) :
    ShortNames entries := by
  obtain ⟨full, _, _, once⟩ := lists
  obtain ⟨d', reaches⟩ := reaches
  obtain ⟨ctx, buffers, loops⟩ := dir.readdirFrom_iff
  have returns := once d path d' reaches
  rw [opReaddir_found dir.stored reaches, loops] at returns
  exact readdir_short dir dir.chain printable buffers returns

theorem readdir_listing (dir : DirectoryAt fs inode layout n entries) (printable : Printable entries) {d : Dcache}
    {path : List UInt8} (reaches : Reaches fs n d path) :
    ListsDirectory fs n (liveNames entries) ↔ ShortNames entries := by
  constructor
  · exact ListsDirectory.short dir printable reaches
  · intro short
    refine ⟨listing 0 entries, listing_names 0 entries, ?_, ?_⟩
    · intro calls made
      exact readdirPages_returns dir calls made dir.chain printable short
    · intro d path d' reaches
      have once := dir.opReaddir_returns dir.chain printable short reaches none
      rwa [accepted_none] at once

end

theorem readdir_listing_tree : ListsDirectory treeFs 2 [[0x2e], [0x2e, 0x2e], nameA, nameB] := by
  have reaches : Reaches treeFs 2 inodeInit [slash] := ⟨inodeInit, 5, by decide +kernel⟩
  have printable : Printable treeRoot := by
    unfold Printable
    decide
  have short : ShortNames treeRoot := by
    unfold ShortNames
    decide
  exact (readdir_listing treeRoot_at printable reaches).mpr short

/-! ## A name that fills its buffer -/

def fullName : List UInt8 := List.replicate 255 0x78

def fullDisk : Disk := smallDisk [inodeAt 2 (dirInode 10), (10240, dots 2 2 ++ dentry 14 1000 fullName)]

def fullFs : Fs := ⟨fullDisk, smallSuper, [5]⟩

def fullRoot : List Dirent := [⟨2, 12, [0x2e]⟩, ⟨2, 12, [0x2e, 0x2e]⟩, ⟨14, 1000, fullName⟩]

theorem fullFs_mounted : opInit fullDisk = .ok fullFs := opInit_small (by decide +kernel) (by decide +kernel)

theorem readdir_full_name : opInit fullDisk = .ok fullFs ∧
    DirectoryAt fullFs (dirInode 10) (.extents 0 [⟨0, 1, 0, 10⟩]) 2 fullRoot ∧ Printable fullRoot ∧
    opReaddir fullFs inodeInit [slash] 0 none 10 = .fail .outOfBounds ∧
    ¬ ListsDirectory fullFs 2 (liveNames fullRoot) := by
  have directory : DirectoryAt fullFs (dirInode 10) (.extents 0 [⟨0, 1, 0, 10⟩]) 2 fullRoot := by
    refine .ofExtent (by decide +kernel) rfl (by decide) (singleExtent_valid (by decide) (by decide +kernel)
      (by decide +kernel) ⟨rfl, by decide, by decide, by decide, by decide⟩) (by decide) (by decide) (by decide)
      (by decide) ?_
    decide +kernel
  have printable : Printable fullRoot := by
    unfold Printable
    decide +kernel
  have reaches : Reaches fullFs 2 inodeInit [slash] := ⟨inodeInit, 5, by decide +kernel⟩
  refine ⟨fullFs_mounted, directory, printable, by decide +kernel, ?_⟩
  intro lists
  have short := lists.short directory printable reaches
  exact short ⟨14, 1000, fullName⟩ (by simp [fullRoot]) (by decide) List.length_replicate

end SampleFs.Proof.Fuse

import SampleFs.Fuse.OutputWrites
import SampleFs.Proof.Fuse.DirectoryScan
import SampleFs.Proof.Fuse.Readlink

namespace SampleFs.Proof.Fuse
open Lib SampleFs.Fuse

/-! ## What has to fit -/

/-- Every round that a listing comes to, whatever its filler takes, writes inside `name_buf`. -/
def NamesFit (fs : Fs) (inode : Inode) (offset : Nat) : Prop :=
  ∀ room ctx, Exec.Returns (dirCtxUpdate fs inode 0) ctx →
    ∀ s, Exec.Comes (readdirPass fs inode room) { offset, ctx, filled := [] } s →
      ∀ fuel writes, readdirPassWrites fs inode fuel s = .ok writes → ∀ write ∈ writes, write.Fits ext4NameLen

def LiveNameLen (buf : List UInt8) (pos nameLen : Nat) : Prop :=
  ∃ ino, load buf pos 4 = .ok ino ∧ ino ≠ 0 ∧ load buf (pos + 6) 1 = .ok nameLen

def ShortListing (fs : Fs) (inode : Inode) (offset : Nat) : Prop :=
  ∀ first, Exec.Returns (dirCtxUpdate fs inode 0) first →
    ∀ o, Chained fs inode examinePrint offset o → o < inode.size →
      ∀ ctx nameLen, Exec.Returns (dirCtxUpdate fs inode (lblockOf fs o)) ctx →
        LiveNameLen ctx.buf (o % fs.super.blockSize) nameLen → nameLen ≠ ext4NameLen

/-- The writes of `op_readlink` are those of an inode that was read and inside `buf`, and a target that is
too long for it is cut. -/
structure TextFits (fs : Fs) (d : Dcache) (path buf : List UInt8) (found : Option Inode) (d' : Dcache) : Prop where
  inside : ∀ fuel out, opReadlinkWrites fs d path buf.length fuel = .ok out →
    ∃ writes, out = some writes ∧ ∀ write ∈ writes, write.Fits buf.length
  cut : ∀ inode layout target, found = some inode → LinkAt fs inode layout target → buf.length ≤ target.length →
    Exec.Returns (opReadlink fs d path buf) (0, target.take (buf.length - 1) ++ [0], d')

def Fetched (fs : Fs) (inode : Inode) : Prop := ∃ ctx, Exec.Returns (dirCtxUpdate fs inode 0) ctx

def LinkShort (fs : Fs) (found : Option Inode) (bufsize : Nat) : Prop :=
  ∃ inode, found = some inode ∧
    (inode.isLnk = true → inode.size < bufsize ∨ 60 < inode.size ∧ ¬ Fetched fs inode)

theorem writes_fit {size width pos : Nat} (text : width ≤ size) (ends : pos < size) :
    ∀ write ∈ ([⟨0, width⟩, ⟨pos, 1⟩] : List BufWrite), write.Fits size := by
  intro write member
  simp only [List.mem_cons, List.not_mem_nil, or_false] at member
  rcases member with rfl | rfl
  · exact (Nat.zero_add width).le.trans text
  · exact ends

/-! ## Listings -/

section
variable {fs : Fs} {inode : Inode} {start : Nat}

theorem readdirPass_again {s next : ReaddirLoop}
    (goes : Exec.Returns (fun fuel => readdirPass fs inode none fuel s) (.again next)) :
    ∃ pos recLen, Exec.Returns (inodeDentryGet fs inode s.offset s.ctx) (some pos, next.ctx) ∧
      examinePrint next.ctx.buf pos = .ok (some recLen) ∧ next.offset = s.offset + recLen := by
  obtain ⟨fuel, runs⟩ := goes
  simp only [readdirPass_eq] at runs
  obtain ⟨⟨_ | pos, ctx⟩, gets, rest⟩ := Exec.bind_eq_ok.mp runs
  · cases rest
  · obtain ⟨x, reads, out⟩ := Exec.bind_eq_ok.mp rest
    obtain ⟨filled, again⟩ := printOut_again s ctx x
    rw [again] at out
    cases out
    refine ⟨pos, x.1, ⟨fuel, gets⟩, ?_, rfl⟩
    rw [examinePrint, reads]
    rfl

theorem comes_chained {s t : ReaddirLoop} (comes : Exec.Comes (readdirPass fs inode none) s t)
    (here : Chained fs inode examinePrint start s.offset ∧ Buffered fs inode s.ctx) :
    Chained fs inode examinePrint start t.offset ∧ Buffered fs inode t.ctx := by
  induction comes with
  | here => exact here
  | @again s next t goes _ ih =>
      obtain ⟨chained, buffered⟩ := here
      obtain ⟨pos, recLen, gets, passes, lands⟩ := readdirPass_again goes
      obtain ⟨inside, rfl, updates⟩ := dentryGet_some buffered gets
      refine ih ⟨?_, .of_update updates⟩
      rw [lands]
      exact .next chained inside updates passes

theorem chained_comes {first : ReaddirLoop} (buffered : Buffered fs inode first.ctx) {o : Nat}
    (chained : Chained fs inode examinePrint first.offset o) :
    ∃ s, Exec.Comes (readdirPass fs inode none) first s ∧ s.offset = o ∧ Buffered fs inode s.ctx := by
  induction chained with
  | first => exact ⟨first, .here first, rfl, buffered⟩
  | @next o recLen ctx _ inside updates passes ih =>
      obtain ⟨s, comes, rfl, kept⟩ := ih
      obtain ⟨next, goes, rfl, _, lands⟩ :=
        (listLoop fs inode (s.offset + recLen + 1)).passes (show s.offset < _ by omega) kept inside updates passes
      exact ⟨next, comes.step goes, lands (Nat.lt_succ_self _), .of_update updates⟩

/-- A filler with room for a name takes it as one that takes every name does. -/
theorem roomy_again {room : Option Nat} {fuel : Nat} {s next : ReaddirLoop}
    (goes : readdirPass fs inode room fuel s = .ok (.again next)) :
    readdirPass fs inode none fuel s = .ok (.again next) := by
  obtain ⟨⟨_ | pos, ctx⟩, gets, rest⟩ := Exec.bind_eq_ok.mp goes
  · cases rest
  · obtain ⟨ino, first, rest⟩ := Exec.bind_eq_ok.mp rest
    obtain ⟨recLen, second, rest⟩ := Exec.bind_eq_ok.mp rest
    simp only [readdirPass, gets, Exec.ok_bind, first, second]
    by_cases unused : ino = 0
    · rw [if_pos unused] at rest ⊢
      exact rest
    · rw [if_neg unused] at rest ⊢
      obtain ⟨nameBuf, named, rest⟩ := Exec.bind_eq_ok.mp rest
      rw [named, Exec.ok_bind]
      by_cases empty : nameBuf.headD 0 = 0
      · rw [if_pos empty] at rest ⊢
        exact rest
      · rw [if_neg empty] at rest ⊢
        rw [filler] at rest ⊢
        by_cases full : room = some s.filled.length
        · rw [if_pos full] at rest
          cases rest
        · rw [if_neg full] at rest
          rw [if_neg (by simp)]
          exact rest

theorem comes_roomy {room : Option Nat} {s t : ReaddirLoop} (comes : Exec.Comes (readdirPass fs inode room) s t) :
    Exec.Comes (readdirPass fs inode none) s t := by
  induction comes with
  | here s => exact .here s
  | again goes _ ih =>
      obtain ⟨fuel, runs⟩ := goes
      exact .again ⟨fuel, roomy_again runs⟩ ih

theorem names_fit {offset : Nat} : NamesFit fs inode offset ↔ ShortListing fs inode offset := by
  constructor
  · intro fit first opens o chained inside ctx nameLen updates live
    obtain ⟨s, comes, rfl, buffered⟩ := @chained_comes fs inode ⟨offset, first, []⟩ (.of_update opens) o chained
    obtain ⟨fuel, gets⟩ := (dentryGet_returns buffered inside).mpr ⟨rfl, updates⟩
    obtain ⟨ino, loads, used, named⟩ := live
    have writes : readdirPassWrites fs inode fuel s = .ok [⟨0, nameLen⟩, ⟨nameLen, 1⟩] := by
      simp only [readdirPassWrites, gets, Exec.ok_bind, loads, if_neg used, printableNameWrites, named]
      rfl
    have last : nameLen + 1 ≤ ext4NameLen := fit none first opens s comes fuel _ writes ⟨nameLen, 1⟩ (by simp)
    omega
  · intro short room first opens s comes fuel writes runs
    obtain ⟨chained, buffered⟩ := comes_chained (comes_roomy comes) ⟨.first, .of_update opens⟩
    obtain ⟨⟨_ | pos, ctx⟩, gets, rest⟩ := Exec.bind_eq_ok.mp runs
    · cases rest
      simp
    · obtain ⟨ino, loads, rest⟩ := Exec.bind_eq_ok.mp rest
      by_cases unused : ino = 0
      · rw [if_pos unused] at rest
        cases rest
        simp
      · rw [if_neg unused] at rest
        obtain ⟨nameLen, named, rest⟩ := Exec.bind_eq_ok.mp rest
        cases rest
        obtain ⟨inside, rfl, updates⟩ := dentryGet_some buffered ⟨fuel, gets⟩
        have other := short first opens s.offset chained inside ctx nameLen updates ⟨ino, loads, unused, named⟩
        have byte := load_lt named
        have room : nameLen + 1 ≤ ext4NameLen := by
          simp only [ext4NameLen] at other ⊢
          omega
        exact writes_fit (Nat.le_of_succ_le room) room

/-! ## Links -/

theorem LinkAt.fetched {layout : Layout} {target : List UInt8} (link : LinkAt fs inode layout target)
    (long : 60 < inode.size) : Fetched fs inode := by
  have size := link.size
  obtain ⟨_, readable, mapped, _⟩ := link.slow (by omega)
  exact ⟨_, readable.update (by omega) mapped⟩

theorem linkDestWrites_slow (long : 60 < inode.size) {bufsize fuel : Nat} {writes : List BufWrite} :
    linkDestWrites fs inode bufsize fuel = .ok writes ↔
      (∃ ctx, dirCtxUpdate fs inode 0 fuel = .ok ctx) ∧ writes = [⟨0, bufsize - 1⟩, ⟨inode.size, 1⟩] := by
  rw [linkDestWrites, if_neg (by omega), dirCtxUpdate]
  constructor
  · intro runs
    obtain ⟨⟨pblock, len⟩, finds, rest⟩ := Exec.bind_eq_ok.mp runs
    obtain ⟨data, reads, rest⟩ := Exec.bind_eq_ok.mp rest
    cases rest
    refine ⟨⟨⟨0, data⟩, ?_⟩, rfl⟩
    rw [finds, Exec.ok_bind]
    simp only [reads]
    rfl
  · rintro ⟨⟨ctx, runs⟩, rfl⟩
    obtain ⟨⟨pblock, len⟩, finds, rest⟩ := Exec.bind_eq_ok.mp runs
    obtain ⟨data, reads, _⟩ := Exec.bind_eq_ok.mp rest
    rw [finds, Exec.ok_bind]
    simp only [reads]
    rfl

theorem link_writes {bufsize : Nat} :
    (∀ fuel writes, linkDestWrites fs inode bufsize fuel = .ok writes → ∀ write ∈ writes, write.Fits bufsize) ↔
      inode.size < bufsize ∨ 60 < inode.size ∧ ¬ Fetched fs inode := by
  constructor
  · intro fit
    by_cases short : inode.size ≤ 60
    · have last := fit 0 _ (by rw [linkDestWrites, if_pos short]; rfl) ⟨inode.size, 1⟩ (by simp)
      exact .inl last
    · by_cases fetched : Fetched fs inode
      · obtain ⟨ctx, fuel, runs⟩ := fetched
        have last := fit fuel _ ((linkDestWrites_slow (by omega)).mpr ⟨⟨ctx, runs⟩, rfl⟩) ⟨inode.size, 1⟩ (by simp)
        exact .inl last
      · exact .inr ⟨by omega, fetched⟩
  · intro condition fuel writes runs
    by_cases short : inode.size ≤ 60
    · have room : inode.size < bufsize := by omega
      rw [linkDestWrites, if_pos short] at runs
      cases runs
      exact writes_fit room.le room
    · obtain ⟨⟨ctx, fetches⟩, rfl⟩ := (linkDestWrites_slow (by omega)).mp runs
      have room : inode.size < bufsize := condition.resolve_right fun unread => unread.2 ⟨ctx, fuel, fetches⟩
      exact writes_fit (Nat.sub_le ..) room

variable {d d' : Dcache} {path buf : List UInt8} {found : Option Inode}

theorem linkDestWrites_growing (fs : Fs) (inode : Inode) (bufsize : Nat) :
    Exec.Growing (linkDestWrites fs inode bufsize) := by
  unfold linkDestWrites
  refine .ite (.const _) ?_
  exact .bind (inodeGetDataPblock_growing fs inode 0) fun _ => .const _

theorem readlinkWrites_found (looked : Exec.Returns (inodeGetByPath fs d path) (some inode, d')) {bufsize : Nat}
    {out : Option (List BufWrite)} : Exec.Returns (opReadlinkWrites fs d path bufsize) out ↔
      if inode.isLnk then ∃ writes, out = some writes ∧ Exec.Returns (linkDestWrites fs inode bufsize) writes
      else out = some [] := by
  unfold opReadlinkWrites
  refine Iff.trans (Exec.returns_bind_of (inodeGetByPath_growing fs d path) ?_ looked) ?_
  · rintro ⟨_ | other, e⟩
    · exact .const _
    · exact .ite (.bind (linkDestWrites_growing fs other bufsize) fun _ => .const _) (.const _)
  · by_cases link : inode.isLnk = true
    · simp only [if_pos link]
      refine Iff.trans (Exec.returns_bind (linkDestWrites_growing fs inode bufsize) ?_) ?_
      · exact fun _ => .const _
      · simp only [Exec.returns_const, Exec.pure_eq, Exec.ok.injEq]
        constructor
        · rintro ⟨writes, returns, rfl⟩
          exact ⟨writes, rfl, returns⟩
        · rintro ⟨writes, rfl, returns⟩
          exact ⟨writes, returns, rfl⟩
    · simp only [if_neg link, Exec.returns_const, Exec.pure_eq, Exec.ok.injEq]
      exact eq_comm

theorem text_fits (looked : Exec.Returns (inodeGetByPath fs d path) (found, d')) :
    TextFits fs d path buf found d' ↔ LinkShort fs found buf.length := by
  cases found with
  | none =>
      refine iff_of_false ?_ ?_
      · intro fits
        obtain ⟨fuel, runs⟩ := looked
        obtain ⟨writes, filled, _⟩ := fits.inside fuel none (by rw [opReadlinkWrites, runs]; rfl)
        cases filled
      · rintro ⟨inode, missing, _⟩
        cases missing
  | some inode =>
      have runs {out : Option (List BufWrite)} := @readlinkWrites_found fs inode d d' path looked buf.length out
      by_cases link : inode.isLnk = true
      · simp only [if_pos link] at runs
        constructor
        · intro fits
          refine ⟨inode, rfl, fun _ => link_writes.mp ?_⟩
          intro fuel writes made
          obtain ⟨fuel', returns⟩ := runs.mpr ⟨writes, rfl, fuel, made⟩
          obtain ⟨_, same, all⟩ := fits.inside fuel' _ returns
          cases same
          exact all
        · rintro ⟨_, same, short⟩
          cases same
          refine ⟨?_, ?_⟩
          · intro fuel out returns
            obtain ⟨writes, rfl, fuel', made⟩ := runs.mp ⟨fuel, returns⟩
            exact ⟨writes, rfl, link_writes.mpr (short link) fuel' writes made⟩
          · intro _ layout target same stored long
            cases same
            have size := stored.size
            rcases short link with room | ⟨slow, unread⟩
            · omega
            · exact absurd (stored.fetched slow) unread
      · simp only [if_neg link] at runs
        refine iff_of_true ⟨?_, ?_⟩ ⟨inode, rfl, fun other => absurd other link⟩
        · intro fuel out returns
          rw [runs.mp ⟨fuel, returns⟩]
          exact ⟨[], rfl, by simp⟩
        · intro _ layout target same stored _
          cases same
          exact absurd stored.isLnk link

theorem output_buffers (looked : Exec.Returns (inodeGetByPath fs d path) (found, d')) (buf : List UInt8) (offset : Nat) :
    ((∀ inode, found = some inode → NamesFit fs inode offset) ↔
        ∀ inode, found = some inode → ShortListing fs inode offset) ∧
      (TextFits fs d path buf found d' ↔ LinkShort fs found buf.length) :=
  ⟨forall_congr' fun _ => imp_congr_right fun _ => names_fit, text_fits looked⟩

end

theorem output_buffers_short : NamesFit longFs (dirInode 10) 0 ∧
    TextFits linkFs inodeInit (slash :: nameA) (List.replicate 62 0xff) (some longLink) (cacheOf 13 nameA) := by
  have directory : Exec.Returns (inodeGetByPath longFs inodeInit [slash]) (some (dirInode 10), inodeInit) :=
    ⟨5, by decide +kernel⟩
  have opens : Exec.Returns (dirCtxUpdate longFs (dirInode 10) 0) ⟨0, longDisk.bytes 10240 1024⟩ :=
    @opens_block longFs (dirInode 10) 10 1 _ _ (by decide +kernel) (by decide) (by decide) (by decide)
  have lengths : examinePrint (longDisk.bytes 10240 1024) 0 = .ok (some 12) ∧
      examinePrint (longDisk.bytes 10240 1024) 12 = .ok (some 12) ∧
      examinePrint (longDisk.bytes 10240 1024) 24 = .ok (some 12) ∧
      examinePrint (longDisk.bytes 10240 1024) 36 = .ok (some 988) := by decide +kernel
  have names : load (longDisk.bytes 10240 1024) (0 + 6) 1 = .ok 1 ∧
      load (longDisk.bytes 10240 1024) (12 + 6) 1 = .ok 2 ∧ load (longDisk.bytes 10240 1024) (24 + 6) 1 = .ok 1 ∧
      load (longDisk.bytes 10240 1024) (36 + 6) 1 = .ok 40 := by decide +kernel
  have size : (dirInode 10).size = 1024 := rfl
  constructor
  · refine (output_buffers directory [] 0).1.mpr ?_ _ rfl
    rintro _ same
    cases same
    intro _ _ o chained inside ctx nameLen updates live
    have listed := @Chained.listed _ _ _ _ _ [0, 12, 24, 36, 1024] opens (by decide) (by decide) (by
      intro o member inside recLen passes
      simp only [List.mem_cons, List.not_mem_nil, or_false] at member
      rcases member with rfl | rfl | rfl | rfl | rfl
      · cases lengths.1.symm.trans passes
        decide
      · cases lengths.2.1.symm.trans passes
        decide
      · cases lengths.2.2.1.symm.trans passes
        decide
      · cases lengths.2.2.2.symm.trans passes
        decide
      · omega) _ chained
    obtain ⟨same, within⟩ := block_unique opens (by decide) inside updates
    obtain ⟨_, _, _, named⟩ := live
    rw [same, within] at named
    simp only [List.mem_cons, List.not_mem_nil, or_false] at listed
    rcases listed with rfl | rfl | rfl | rfl | rfl
    · cases names.1.symm.trans named
      decide
    · cases names.2.1.symm.trans named
      decide
    · cases names.2.2.1.symm.trans named
      decide
    · cases names.2.2.2.symm.trans named
      decide
    · omega
  · refine (output_buffers (linkFs_looked linkFs_long) (List.replicate 62 0xff) 0).2.mpr ⟨longLink, rfl, ?_⟩
    exact fun _ => .inl (by decide)

theorem output_buffers_overrun : opInit fullDisk = .ok fullFs ∧
    inodeGetByPath fullFs inodeInit [slash] 5 = .ok (some (dirInode 10), inodeInit) ∧ ¬ NamesFit fullFs (dirInode 10) 0 ∧
    opInit linkDisk = .ok linkFs ∧
    inodeGetByPath linkFs inodeInit (slash :: nameA) 5 = .ok (some longLink, cacheOf 13 nameA) ∧
    ¬ TextFits linkFs inodeInit (slash :: nameA) (List.replicate 10 0xff) (some longLink) (cacheOf 13 nameA) := by
  have opens : Exec.Returns (dirCtxUpdate fullFs (dirInode 10) 0) ⟨0, fullDisk.bytes 10240 1024⟩ :=
    @opens_block fullFs (dirInode 10) 10 1 _ _ (by decide +kernel) (by decide) (by decide) (by decide)
  have fetches : Exec.Returns (dirCtxUpdate linkFs longLink 0) ⟨0, linkDisk.bytes 20480 1024⟩ :=
    @opens_block linkFs longLink 20 1 _ _ (by decide +kernel) (by decide) (by decide) (by decide)
  refine ⟨fullFs_mounted, by decide +kernel, ?_, linkFs_mounted, linkFs_long, ?_⟩
  · intro fit
    have start : Chained fullFs (dirInode 10) examinePrint 0 0 := .first
    have dot : Chained fullFs (dirInode 10) examinePrint 0 (0 + 12) := .next start (by decide) opens (by decide +kernel)
    have last : Chained fullFs (dirInode 10) examinePrint 0 (0 + 12 + 12) := .next dot (by decide) opens (by decide +kernel)
    refine names_fit.mp fit _ opens _ last (by decide) _ 255 opens ?_ rfl
    exact ⟨14, by decide +kernel, by decide, by decide +kernel⟩
  · intro fits
    obtain ⟨_, same, short⟩ := (text_fits (linkFs_looked linkFs_long)).mp fits
    cases same
    rcases short (by decide) with room | ⟨_, unread⟩
    · exact absurd room (by decide)
    · exact unread ⟨_, fetches⟩

end SampleFs.Proof.Fuse

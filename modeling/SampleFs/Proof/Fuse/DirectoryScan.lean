import SampleFs.Proof.Fuse.LookupSettles
import SampleFs.Proof.Fuse.Readdir

namespace SampleFs.Proof.Fuse
open Lib SampleFs.Fuse

def lblockOf (fs : Fs) (offset : Nat) : Nat := offset / fs.super.blockSize % 2 ^ 32

/-- The buffered block is what the disk holds for it. -/
def Buffered (fs : Fs) (inode : Inode) (ctx : DirCtx) : Prop :=
  Exec.Returns (dirCtxUpdate fs inode ctx.lblock) ctx

/-! ## The entries of a directory in their order -/

section
variable (fs : Fs) (inode : Inode) (examine : List UInt8 → Nat → Exec Fault (Option Nat)) (start limit : Nat)

/-- The offsets of the entries from `start` on, as long as `examine` passes them over. -/
inductive Chained : Nat → Prop
  | first : Chained start
  | next {offset recLen : Nat} {ctx : DirCtx} : Chained offset → offset < inode.size →
      Exec.Returns (dirCtxUpdate fs inode (lblockOf fs offset)) ctx →
      examine ctx.buf (offset % fs.super.blockSize) = .ok (some recLen) → Chained (offset + recLen)

/-- The entry can be looked at, and leads on to a later one. -/
structure EntryAdvances (offset : Nat) : Prop where
  lookup : LookupSound fs inode (lblockOf fs offset)
  inside : ∀ ctx, Exec.Returns (dirCtxUpdate fs inode (lblockOf fs offset)) ctx →
    Exec.Settled Asserted (examine ctx.buf (offset % fs.super.blockSize))
  onward : ∀ ctx recLen, Exec.Returns (dirCtxUpdate fs inode (lblockOf fs offset)) ctx →
    examine ctx.buf (offset % fs.super.blockSize) = .ok (some recLen) → 0 < recLen ∧ offset + recLen < limit

structure ChainAdvances : Prop where
  opens : LookupSound fs inode 0
  entries : ∀ ctx, Exec.Returns (dirCtxUpdate fs inode 0) ctx →
    ∀ offset, Chained fs inode examine start offset → offset < inode.size →
      EntryAdvances fs inode examine limit offset

end

/-! ## The entry under an offset -/

section
variable {fs : Fs} {inode : Inode} {offset : Nat} {ctx : DirCtx}

theorem dirCtxUpdate_lblock {lblock : Nat} (returns : Exec.Returns (dirCtxUpdate fs inode lblock) ctx) :
    ctx.lblock = lblock := by
  obtain ⟨fuel, runs⟩ := returns
  obtain ⟨pblock, _, rest⟩ := Exec.bind_eq_ok.mp runs
  obtain ⟨buf, _, same⟩ := Exec.bind_eq_ok.mp rest
  cases same
  rfl

theorem Buffered.of_update {lblock : Nat} (returns : Exec.Returns (dirCtxUpdate fs inode lblock) ctx) :
    Buffered fs inode ctx := by
  rw [Buffered, dirCtxUpdate_lblock returns]
  exact returns

theorem inodeDentryGet_eq (inside : offset < inode.size) :
    inodeDentryGet fs inode offset ctx =
      if lblockOf fs offset = ctx.lblock then fun _ => .ok (some (offset % fs.super.blockSize), ctx)
      else fun fuel => dirCtxUpdate fs inode (lblockOf fs offset) fuel >>= fun ctx =>
        .ok (some (offset % fs.super.blockSize), ctx) := by
  funext fuel
  rw [inodeDentryGet, Exec.check_pos _ inside.le, Exec.ok_bind]
  simp only [if_neg (Nat.ne_of_gt inside)]
  unfold lblockOf
  split <;> rfl

theorem dentryGet_returns (buffered : Buffered fs inode ctx) (inside : offset < inode.size) {pos : Nat}
    {ctx' : DirCtx} : Exec.Returns (inodeDentryGet fs inode offset ctx) (some pos, ctx') ↔
      pos = offset % fs.super.blockSize ∧ Exec.Returns (dirCtxUpdate fs inode (lblockOf fs offset)) ctx' := by
  rw [inodeDentryGet_eq inside]
  by_cases same : lblockOf fs offset = ctx.lblock
  · rw [if_pos same, same]
    constructor
    · intro returns
      cases Exec.returns_const.mp returns
      exact ⟨rfl, buffered⟩
    · rintro ⟨rfl, returns⟩
      rw [Exec.Returns.unique (dirCtxUpdate_growing fs inode ctx.lblock) returns buffered]
      exact ⟨0, rfl⟩
  · rw [if_neg same]
    refine Iff.trans (Exec.returns_bind (dirCtxUpdate_growing fs inode _) ?_) ?_
    · exact fun _ => .const _
    constructor
    · rintro ⟨other, updates, rest⟩
      cases Exec.returns_const.mp rest
      exact ⟨rfl, updates⟩
    · rintro ⟨rfl, updates⟩
      exact ⟨ctx', updates, 0, rfl⟩

theorem dentryGet_settles (buffered : Buffered fs inode ctx) (inside : offset < inode.size) :
    Exec.Settles Asserted (inodeDentryGet fs inode offset ctx) ↔
      Exec.Settles Asserted (dirCtxUpdate fs inode (lblockOf fs offset)) := by
  rw [inodeDentryGet_eq inside]
  by_cases same : lblockOf fs offset = ctx.lblock
  · rw [if_pos same, same]
    exact iff_of_true ⟨0, trivial⟩ (Exec.Returns.settles buffered)
  · rw [if_neg same]
    refine Iff.trans (Exec.settles_bind (dirCtxUpdate_growing fs inode _) fun _ => .const _) ?_
    exact and_iff_left fun _ _ => ⟨0, trivial⟩

theorem dentryGet_outside (outside : ¬ offset < inode.size) :
    Exec.Settles Asserted (inodeDentryGet fs inode offset ctx) ∧
      ∀ pos ctx', ¬ Exec.Returns (inodeDentryGet fs inode offset ctx) (some pos, ctx') := by
  by_cases ends : inode.size = offset
  · subst ends
    refine ⟨⟨0, by rw [dentryGet_end]; trivial⟩, ?_⟩
    rintro pos ctx' ⟨fuel, runs⟩
    rw [dentryGet_end] at runs
    cases runs
  · have stops (fuel : Nat) : inodeDentryGet fs inode offset ctx fuel = .fail .assertFailed := by
      rw [inodeDentryGet, Exec.check_neg _ (by omega), Exec.fail_bind]
    refine ⟨⟨0, by rw [stops]; rfl⟩, ?_⟩
    rintro pos ctx' ⟨fuel, runs⟩
    rw [stops] at runs
    cases runs

theorem dentryGet_some (buffered : Buffered fs inode ctx) {pos : Nat} {ctx' : DirCtx}
    (gets : Exec.Returns (inodeDentryGet fs inode offset ctx) (some pos, ctx')) :
    offset < inode.size ∧ pos = offset % fs.super.blockSize ∧
      Exec.Returns (dirCtxUpdate fs inode (lblockOf fs offset)) ctx' := by
  have inside : offset < inode.size := by
    by_contra outside
    exact (dentryGet_outside outside).2 pos ctx' gets
  exact ⟨inside, (dentryGet_returns buffered inside).mp gets⟩

end

/-! ## Loops over the entries -/

/-- The loop body as seen from outside: it looks at the entry under the offset, and leaves or goes on behind it. -/
structure DirLoop {σ ρ : Type} (fs : Fs) (inode : Inode) (examine : List UInt8 → Nat → Exec Fault (Option Nat))
    (limit : Nat) (body : Nat → σ → Exec Fault (Pass σ ρ)) (offset : σ → Nat) (ctx : σ → DirCtx) : Prop where
  grows : ∀ s, Exec.Growing fun fuel => body fuel s
  settles : ∀ s, Exec.Settles Asserted (fun fuel => body fuel s) ↔
    Exec.Settles Asserted (inodeDentryGet fs inode (offset s) (ctx s)) ∧
      ∀ pos ctx', Exec.Returns (inodeDentryGet fs inode (offset s) (ctx s)) (some pos, ctx') →
        Exec.Settled Asserted (examine ctx'.buf pos)
  goes : ∀ s pos ctx' recLen, Exec.Returns (inodeDentryGet fs inode (offset s) (ctx s)) (some pos, ctx') →
    examine ctx'.buf pos = .ok (some recLen) → ∃ next, Exec.Returns (fun fuel => body fuel s) (.again next) ∧
      ctx next = ctx'
  again : ∀ s next, offset s < limit → Exec.Returns (fun fuel => body fuel s) (.again next) →
    ∃ pos recLen, Exec.Returns (inodeDentryGet fs inode (offset s) (ctx s)) (some pos, ctx next) ∧
      examine (ctx next).buf pos = .ok (some recLen) ∧
      (offset s < offset next ∧ offset next < limit ↔ 0 < recLen ∧ offset s + recLen < limit) ∧
      (offset s + recLen < limit → offset next = offset s + recLen)

section
variable {σ ρ : Type} {fs : Fs} {inode : Inode} {examine : List UInt8 → Nat → Exec Fault (Option Nat)} {limit : Nat}
  {body : Nat → σ → Exec Fault (Pass σ ρ)} {offset : σ → Nat} {ctx : σ → DirCtx}

theorem DirLoop.passes (loop : DirLoop fs inode examine limit body offset ctx) {s : σ} (below : offset s < limit)
    (buffered : Buffered fs inode (ctx s)) (inside : offset s < inode.size) {ctx' : DirCtx} {recLen : Nat}
    (updates : Exec.Returns (dirCtxUpdate fs inode (lblockOf fs (offset s))) ctx')
    (passes : examine ctx'.buf (offset s % fs.super.blockSize) = .ok (some recLen)) :
    ∃ next, Exec.Returns (fun fuel => body fuel s) (.again next) ∧ ctx next = ctx' ∧
      (offset s < offset next ∧ offset next < limit ↔ 0 < recLen ∧ offset s + recLen < limit) ∧
      (offset s + recLen < limit → offset next = offset s + recLen) := by
  have gets := (dentryGet_returns buffered inside).mpr ⟨rfl, updates⟩
  obtain ⟨next, goes, rfl⟩ := loop.goes s _ ctx' recLen gets passes
  obtain ⟨pos, recLen', gets', passes', behind⟩ := loop.again s next below goes
  obtain ⟨_, rfl, _⟩ := dentryGet_some buffered gets'
  rw [passes] at passes'
  cases passes'
  exact ⟨next, goes, rfl, behind⟩

theorem DirLoop.examined (loop : DirLoop fs inode examine limit body offset ctx)
    (sized : inode.block.length = iBlockBytes) {s : σ} (below : offset s < limit)
    (buffered : Buffered fs inode (ctx s)) :
    (Exec.Settles Asserted (fun fuel => body fuel s) ∧ Exec.Rises body offset limit s) ↔
      (offset s < inode.size → EntryAdvances fs inode examine limit (offset s)) := by
  by_cases inside : offset s < inode.size
  · rw [loop.settles, dentryGet_settles buffered inside, dirCtx_settles sized]
    constructor
    · rintro ⟨⟨lookup, settled⟩, rises⟩ _
      refine ⟨lookup, ?_, ?_⟩
      · intro ctx' updates
        exact settled _ ctx' ((dentryGet_returns buffered inside).mpr ⟨rfl, updates⟩)
      · intro ctx' recLen updates passes
        obtain ⟨next, goes, _, higher, _⟩ := loop.passes below buffered inside updates passes
        exact higher.mp (rises next goes)
    · intro advances
      obtain ⟨lookup, settled, onward⟩ := advances inside
      refine ⟨⟨lookup, ?_⟩, ?_⟩
      · intro pos ctx' gets
        obtain ⟨rfl, updates⟩ := (dentryGet_returns buffered inside).mp gets
        exact settled ctx' updates
      · intro next goes
        obtain ⟨pos, recLen, gets, passes, higher, _⟩ := loop.again s next below goes
        obtain ⟨rfl, updates⟩ := (dentryGet_returns buffered inside).mp gets
        exact higher.mpr (onward (ctx next) recLen updates passes)
  · obtain ⟨settles, never⟩ := @dentryGet_outside fs inode (offset s) (ctx s) inside
    refine iff_of_true ⟨(loop.settles s).mpr ⟨settles, ?_⟩, ?_⟩ fun less => absurd less inside
    · intro pos ctx' gets
      exact absurd gets (never pos ctx')
    · intro next goes
      obtain ⟨pos, _, gets, _⟩ := loop.again s next below goes
      exact absurd gets (never pos (ctx next))

theorem DirLoop.comes (loop : DirLoop fs inode examine limit body offset ctx) {first : σ}
    (below : offset first < limit) (buffered : Buffered fs inode (ctx first))
    (all : ∀ s, Exec.Comes body first s → Exec.Settles Asserted (fun fuel => body fuel s) ∧ Exec.Rises body offset limit s)
    {o : Nat} (chained : Chained fs inode examine (offset first) o) :
    ∃ s, Exec.Comes body first s ∧ offset s = o ∧ o < limit ∧ Buffered fs inode (ctx s) := by
  induction chained with
  | first => exact ⟨first, .here first, rfl, below, buffered⟩
  | @next o recLen ctx' _ inside updates passes ih =>
      obtain ⟨s, comes, rfl, less, kept⟩ := ih
      obtain ⟨next, goes, rfl, higher, lands⟩ := loop.passes less kept inside updates passes
      have small := (higher.mp ((all s comes).2 next goes)).2
      exact ⟨next, comes.step goes, lands small, small, .of_update updates⟩

theorem DirLoop.chained (loop : DirLoop fs inode examine limit body offset ctx) {start : Nat} {s t : σ}
    (comes : Exec.Comes body s t)
    (entries : ∀ o, Chained fs inode examine start o → o < inode.size → EntryAdvances fs inode examine limit o)
    (here : Chained fs inode examine start (offset s) ∧ offset s < limit ∧ Buffered fs inode (ctx s)) :
    Chained fs inode examine start (offset t) ∧ offset t < limit ∧ Buffered fs inode (ctx t) := by
  induction comes with
  | here => exact here
  | @again s next t goes _ ih =>
      obtain ⟨chained, below, buffered⟩ := here
      obtain ⟨pos, recLen, gets, passes, higher, lands⟩ := loop.again s next below goes
      obtain ⟨inside, rfl, updates⟩ := dentryGet_some buffered gets
      have small := ((entries _ chained inside).onward _ recLen updates passes).2
      refine ih ⟨?_, ?_, .of_update updates⟩
      · rw [lands small]
        exact .next chained inside updates passes
      · rw [lands small]
        exact small

theorem DirLoop.ends (loop : DirLoop fs inode examine limit body offset ctx)
    (sized : inode.block.length = iBlockBytes) {first : σ} (below : offset first < limit) (buffered : Buffered fs inode (ctx first)) :
    (Exec.Settles Asserted (fun fuel => Exec.loop (body fuel) fuel first) ∧
        ∀ s, Exec.Comes body first s → Exec.Rises body offset limit s) ↔
      ∀ o, Chained fs inode examine (offset first) o → o < inode.size → EntryAdvances fs inode examine limit o := by
  rw [Exec.loop_settles loop.grows]
  constructor
  · intro all o chained inside
    obtain ⟨s, comes, rfl, less, kept⟩ := loop.comes below buffered all chained
    exact (loop.examined sized less kept).mp (all s comes) inside
  · intro entries s comes
    obtain ⟨chained, less, kept⟩ := loop.chained comes entries ⟨.first, below, buffered⟩
    exact (loop.examined sized less kept).mpr (entries _ chained)

/-- A body that gets the entry, reads it, and leaves or goes on by what it has read. -/
theorem DirLoop.of_entry {τ : Type} {entry : List UInt8 → Nat → Exec Fault τ} {passed : τ → Option Nat} {leave : σ → ρ}
    {out : σ → DirCtx → τ → Pass σ ρ}
    (pass : ∀ fuel s, body fuel s = inodeDentryGet fs inode (offset s) (ctx s) fuel >>= fun found =>
      match found with
      | (none, _) => .ok (.done (leave s))
      | (some pos, ctx') => entry ctx'.buf pos >>= fun x => .ok (out s ctx' x))
    (goes : ∀ s ctx' x recLen, passed x = some recLen → ∃ next, out s ctx' x = .again next ∧ ctx next = ctx')
    (lands : ∀ s ctx' x next buf pos, offset s < limit → entry buf pos = .ok x → out s ctx' x = .again next →
      ∃ recLen, passed x = some recLen ∧ ctx next = ctx' ∧
        (offset s < offset next ∧ offset next < limit ↔ 0 < recLen ∧ offset s + recLen < limit) ∧
        (offset s + recLen < limit → offset next = offset s + recLen)) :
    DirLoop fs inode (fun buf pos => entry buf pos >>= fun x => .ok (passed x)) limit body offset ctx := by
  have grows (found : Option Nat × DirCtx) (s : σ) : Exec.Growing fun _ : Nat => (match found with
      | (none, _) => .ok (.done (leave s))
      | (some pos, ctx') => entry ctx'.buf pos >>= fun x => .ok (out s ctx' x) : Exec Fault (Pass σ ρ)) := .const _
  refine ⟨?_, ?_, ?_, ?_⟩
  · intro s
    simp only [pass]
    exact .bind (inodeDentryGet_growing fs inode _ _) fun found => grows found s
  · intro s
    simp only [pass]
    rw [Exec.settles_bind (inodeDentryGet_growing fs inode _ _) fun found => grows found s]
    refine and_congr_right fun _ => ⟨?_, ?_⟩
    · intro all pos ctx' gets
      have settled := Exec.settled_bind.mp (Exec.settles_const.mp (all (some pos, ctx') gets))
      exact Exec.settled_bind.mpr ⟨settled.1, fun _ _ => trivial⟩
    · rintro all ⟨_ | pos, ctx'⟩ gets
      · exact ⟨0, trivial⟩
      · have settled := Exec.settled_bind.mp (all pos ctx' gets)
        exact ⟨0, Exec.settled_bind.mpr ⟨settled.1, fun _ _ => trivial⟩⟩
  · intro s pos ctx' recLen gets passes
    obtain ⟨x, reads, same⟩ := Exec.bind_eq_ok.mp passes
    obtain ⟨next, again, kept⟩ := goes s ctx' x recLen (Exec.ok.inj same)
    refine ⟨next, ?_, kept⟩
    simp only [pass]
    refine (Exec.returns_bind_of (inodeDentryGet_growing fs inode _ _) (fun found => grows found s) gets).mpr ⟨0, ?_⟩
    simp only [reads, Exec.ok_bind, again]
  · intro s next below again
    simp only [pass] at again
    obtain ⟨⟨found, ctx'⟩, gets, rest⟩ :=
      (Exec.returns_bind (inodeDentryGet_growing fs inode _ _) fun found => grows found s).mp again
    cases found with
    | none => cases Exec.returns_const.mp rest
    | some pos =>
        obtain ⟨x, reads, same⟩ := Exec.bind_eq_ok.mp (Exec.returns_const.mp rest)
        obtain ⟨recLen, passes, rfl, higher, small⟩ := lands s ctx' x next ctx'.buf pos below reads (Exec.ok.inj same)
        refine ⟨pos, recLen, gets, ?_, higher, small⟩
        rw [reads, Exec.ok_bind, passes]

end

/-! ## Looking for a name -/

/-- How `inode_get_idx_by_path` takes an entry: it passes it over, or follows its inode number. -/
def nameEntry (path : List UInt8) (pathLen : Nat) (buf : List UInt8) (pos : Nat) : Exec Fault (Pass Nat Nat) := do
  let ino ← load buf pos 4
  let recLen ← load buf (pos + 4) 2
  if ino = 0 then return .again recLen
  else do
    let nameLen ← load buf (pos + 6) 1
    if pathLen ≠ nameLen then return .again recLen
    else do
      Exec.check (pos + 8 + nameLen ≤ buf.length) .outOfBounds
      if (buf.drop (pos + 8)).take nameLen ≠ path.take nameLen then return .again recLen
      else return .done ino

def passedOver : Pass Nat Nat → Option Nat
  | .again recLen => some recLen
  | .done _ => none

def examineName (path : List UInt8) (pathLen : Nat) (buf : List UInt8) (pos : Nat) : Exec Fault (Option Nat) := do
  return passedOver (← nameEntry path pathLen buf pos)

def nameOut (s : DirScan) (ctx : DirCtx) : Pass Nat Nat → Pass DirScan (Option Nat)
  | .again recLen => .again { offset := (s.offset + recLen) % 2 ^ 32, ctx }
  | .done ino => .done (some ino)

section
variable {path buf : List UInt8} {pathLen pos : Nat}

theorem nameEntry_recLen {recLen : Nat} (reads : nameEntry path pathLen buf pos = .ok (.again recLen)) :
    recLen < 2 ^ 16 := by
  obtain ⟨ino, _, rest⟩ := Exec.bind_eq_ok.mp reads
  obtain ⟨recLen', loads, rest⟩ := Exec.bind_eq_ok.mp rest
  have small := load_lt loads
  have same : recLen' = recLen := by
    by_cases unused : ino = 0
    · rw [if_pos unused] at rest
      cases rest
      rfl
    · rw [if_neg unused] at rest
      obtain ⟨nameLen, _, rest⟩ := Exec.bind_eq_ok.mp rest
      by_cases other : pathLen ≠ nameLen
      · rw [if_pos other] at rest
        cases rest
        rfl
      · rw [if_neg other] at rest
        obtain ⟨_, _, rest⟩ := Exec.bind_eq_ok.mp rest
        split at rest
        · cases rest
          rfl
        · cases rest
  rwa [← same]

theorem dentryPass_eq (fs : Fs) (inode : Inode) (path : List UInt8) (pathLen fuel : Nat) (s : DirScan) :
    dentryPass fs inode path pathLen fuel s = inodeDentryGet fs inode s.offset s.ctx fuel >>= fun found =>
      match found with
      | (none, _) => .ok (.done none)
      | (some pos, ctx) => nameEntry path pathLen ctx.buf pos >>= fun x => .ok (nameOut s ctx x) := by
  unfold dentryPass
  refine congrArg (Bind.bind _) (funext fun found => ?_)
  obtain ⟨_ | pos, ctx⟩ := found
  · rfl
  · simp only [nameEntry, bind_assoc]
    refine congrArg (Bind.bind _) (funext fun ino => congrArg (Bind.bind _) (funext fun recLen => ?_))
    by_cases unused : ino = 0
    · simp only [if_pos unused]
      rfl
    · simp only [if_neg unused, bind_assoc]
      refine congrArg (Bind.bind _) (funext fun nameLen => ?_)
      by_cases other : pathLen ≠ nameLen
      · simp only [if_pos other]
        rfl
      · simp only [if_neg other, bind_assoc]
        refine congrArg (Bind.bind _) (funext fun _ => ?_)
        split <;> rfl

theorem nameLoop (fs : Fs) (inode : Inode) (path : List UInt8) (pathLen : Nat) :
    DirLoop fs inode (examineName path pathLen) (2 ^ 32) (dentryPass fs inode path pathLen) DirScan.offset DirScan.ctx := by
  refine .of_entry (dentryPass_eq fs inode path pathLen) ?_ ?_
  · rintro s ctx (recLen' | ino) recLen passes
    · exact ⟨_, rfl, rfl⟩
    · cases passes
  · rintro s ctx (recLen | ino) next buf pos below reads again
    · cases again
      have small := nameEntry_recLen reads
      refine ⟨recLen, rfl, rfl, ?_, ?_⟩
      · simp only
        omega
      · intro less
        exact Nat.mod_eq_of_lt less
    · cases again

end

/-! ## Listing the directory -/

/-- How `op_readdir` takes an entry: its length, and the name that goes to the filler if there is one. -/
def printEntry (buf : List UInt8) (pos : Nat) : Exec Fault (Nat × Option (List UInt8)) := do
  let ino ← load buf pos 4
  let recLen ← load buf (pos + 4) 2
  if ino = 0 then return (recLen, none)
  else do
    let nameBuf ← getPrintableName buf pos
    return (recLen, if nameBuf.headD 0 = 0 then none else some nameBuf)

def examinePrint (buf : List UInt8) (pos : Nat) : Exec Fault (Option Nat) := do
  return some (← printEntry buf pos).1

def printOut (s : ReaddirLoop) (ctx : DirCtx) : Nat × Option (List UInt8) → Pass ReaddirLoop (List Filled)
  | (recLen, none) => .again { s with offset := s.offset + recLen, ctx }
  | (recLen, some name) =>
      let offset := s.offset + recLen
      .again { offset, ctx, filled := s.filled ++ [⟨name.takeWhile (· ≠ 0), offset⟩] }

theorem printOut_again (s : ReaddirLoop) (ctx : DirCtx) (x : Nat × Option (List UInt8)) :
    ∃ filled, printOut s ctx x = .again ⟨s.offset + x.1, ctx, filled⟩ := by
  obtain ⟨recLen, _ | name⟩ := x
  · exact ⟨s.filled, rfl⟩
  · exact ⟨_, rfl⟩

theorem readdirPass_eq (fs : Fs) (inode : Inode) (fuel : Nat) (s : ReaddirLoop) :
    readdirPass fs inode none fuel s = inodeDentryGet fs inode s.offset s.ctx fuel >>= fun found =>
      match found with
      | (none, _) => .ok (.done s.filled)
      | (some pos, ctx) => printEntry ctx.buf pos >>= fun x => .ok (printOut s ctx x) := by
  unfold readdirPass
  refine congrArg (Bind.bind _) (funext fun found => ?_)
  obtain ⟨_ | pos, ctx⟩ := found
  · rfl
  · simp only [printEntry, bind_assoc]
    refine congrArg (Bind.bind _) (funext fun ino => congrArg (Bind.bind _) (funext fun recLen => ?_))
    by_cases unused : ino = 0
    · simp only [if_pos unused]
      rfl
    · simp only [if_neg unused, bind_assoc]
      refine congrArg (Bind.bind _) (funext fun nameBuf => ?_)
      by_cases empty : nameBuf.headD 0 = 0
      · simp only [if_pos empty]
        rfl
      · simp only [if_neg empty]
        rfl

theorem listLoop (fs : Fs) (inode : Inode) (limit : Nat) :
    DirLoop fs inode examinePrint limit (readdirPass fs inode none) ReaddirLoop.offset ReaddirLoop.ctx := by
  refine @DirLoop.of_entry _ _ _ _ _ _ _ _ _ _ (fun x => some x.1) _ _ (readdirPass_eq fs inode) ?_ ?_
  · intro s ctx x recLen _
    obtain ⟨filled, again⟩ := printOut_again s ctx x
    exact ⟨_, again, rfl⟩
  · intro s ctx x next buf pos below _ goes
    obtain ⟨filled, again⟩ := printOut_again s ctx x
    rw [again] at goes
    cases goes
    refine ⟨x.1, rfl, rfl, ?_, fun _ => rfl⟩
    simp only
    omega

/-! ## Scans that end -/

/-- From the offset on, the loop over the entries ends or an `ASSERT` stops it, and the offset rises on every pass. -/
def ScanEnds {σ ρ : Type} (fs : Fs) (inode : Inode) (body : Nat → σ → Exec Fault (Pass σ ρ)) (offset : σ → Nat)
    (limit : Nat) (first : DirCtx → σ) : Prop :=
  Exec.Settles Asserted (fun fuel => do
    let ctx ← dirCtxUpdate fs inode 0 fuel
    Exec.loop (body fuel) fuel (first ctx)) ∧
  ∀ ctx, Exec.Returns (dirCtxUpdate fs inode 0) ctx → ∀ s, Exec.Comes body (first ctx) s → Exec.Rises body offset limit s

theorem DirLoop.scan_ends {σ ρ : Type} {fs : Fs} {inode : Inode} {examine : List UInt8 → Nat → Exec Fault (Option Nat)}
    {limit start : Nat} {body : Nat → σ → Exec Fault (Pass σ ρ)} {offset : σ → Nat} {ctx : σ → DirCtx}
    {first : DirCtx → σ} (loop : DirLoop fs inode examine limit body offset ctx)
    (sized : inode.block.length = iBlockBytes) (below : start < limit)
    (starts : ∀ c, offset (first c) = start ∧ ctx (first c) = c) :
    ScanEnds fs inode body offset limit first ↔ ChainAdvances fs inode examine start limit := by
  have ends (c : DirCtx) (opens : Exec.Returns (dirCtxUpdate fs inode 0) c) :=
    @DirLoop.ends σ ρ fs inode examine limit body offset ctx loop sized (first c) (by rw [(starts c).1]; exact below)
      (by rw [(starts c).2]; exact .of_update opens)
  have split := @Exec.settles_bind Fault DirCtx ρ Asserted (dirCtxUpdate fs inode 0)
    (fun fuel c => Exec.loop (body fuel) fuel (first c)) (dirCtxUpdate_growing fs inode 0)
    fun c => .loop loop.grows (first c)
  rw [dirCtx_settles sized] at split
  constructor
  · rintro ⟨settles, rises⟩
    obtain ⟨opens, rest⟩ := split.mp settles
    refine ⟨opens, ?_⟩
    intro c returns
    have chain := (ends c returns).mp ⟨rest c returns, rises c returns⟩
    rwa [(starts c).1] at chain
  · rintro ⟨opens, entries⟩
    have both (c : DirCtx) (returns : Exec.Returns (dirCtxUpdate fs inode 0) c) := (ends c returns).mpr (by
      rw [(starts c).1]
      exact entries c returns)
    exact ⟨split.mpr ⟨opens, fun c returns => (both c returns).1⟩, fun c returns => (both c returns).2⟩

/-- The search of `inode_get_idx_by_path` in a directory, with its 32-bit offset. -/
def SearchEnds (fs : Fs) (inode : Inode) (path : List UInt8) (pathLen : Nat) : Prop :=
  ScanEnds fs inode (dentryPass fs inode path pathLen) DirScan.offset (2 ^ 32) fun ctx => { offset := 0, ctx }

/-- The loop of `op_readdir` with a filler that takes every name. Its offset is an `off_t`. -/
def ListingEnds (fs : Fs) (inode : Inode) (offset : Nat) : Prop :=
  ScanEnds fs inode (readdirPass fs inode none) ReaddirLoop.offset (2 ^ 63) fun ctx => { offset, ctx, filled := [] }

theorem directory_scans_end {fs : Fs} {inode : Inode} (sized : inode.block.length = iBlockBytes) (path : List UInt8)
    (pathLen : Nat) {offset : Nat} (below : offset < 2 ^ 63) :
    (SearchEnds fs inode path pathLen ↔ ChainAdvances fs inode (examineName path pathLen) 0 (2 ^ 32)) ∧
      (ListingEnds fs inode offset ↔ ChainAdvances fs inode examinePrint offset (2 ^ 63)) := by
  constructor
  · exact (nameLoop fs inode path pathLen).scan_ends sized (by decide) fun _ => ⟨rfl, rfl⟩
  · exact (listLoop fs inode (2 ^ 63)).scan_ends sized below fun _ => ⟨rfl, rfl⟩

section
variable {fs : Fs} {inode : Inode} {examine : List UInt8 → Nat → Exec Fault (Option Nat)} {start limit : Nat}
  {buf : List UInt8} {offsets : List Nat}

theorem opens_block {p len pos size : Nat} (finds : inodeGetDataPblock fs inode 0 1 = .ok (p, len))
    (place : fs.super.blocks2Bytes p = pos ∧ fs.super.blockSize = size) (small : size ≤ preadMax)
    (room : pos + size ≤ fs.disk.size) : Exec.Returns (dirCtxUpdate fs inode 0) ⟨0, fs.disk.bytes pos size⟩ := by
  obtain ⟨rfl, rfl⟩ := place
  refine ⟨1, ?_⟩
  rw [dirCtxUpdate, finds, Exec.ok_bind]
  simp only [diskRead_ok small room]
  rfl

theorem block_unique (opens : Exec.Returns (dirCtxUpdate fs inode 0) ⟨0, buf⟩) (single : inode.size ≤ fs.super.blockSize)
    {o : Nat} {ctx : DirCtx} (inside : o < inode.size)
    (updates : Exec.Returns (dirCtxUpdate fs inode (lblockOf fs o)) ctx) :
    ctx.buf = buf ∧ o % fs.super.blockSize = o := by
  refine ⟨?_, Nat.mod_eq_of_lt (by omega)⟩
  rw [lblockOf, Nat.div_eq_of_lt (by omega), Nat.zero_mod] at updates
  rw [Exec.Returns.unique (dirCtxUpdate_growing fs inode 0) updates opens]

/-- In a directory of one block, a list closed under going on holds the offset of every entry. -/
theorem Chained.listed (opens : Exec.Returns (dirCtxUpdate fs inode 0) ⟨0, buf⟩)
    (single : inode.size ≤ fs.super.blockSize) (starts : start ∈ offsets)
    (steps : ∀ o ∈ offsets, o < inode.size → ∀ recLen, examine buf o = .ok (some recLen) → o + recLen ∈ offsets)
    {o : Nat} (chained : Chained fs inode examine start o) : o ∈ offsets := by
  induction chained with
  | first => exact starts
  | @next o recLen ctx _ inside updates passes ih =>
      obtain ⟨same, within⟩ := block_unique opens single inside updates
      rw [same, within] at passes
      exact steps o ih inside recLen passes

theorem ChainAdvances.of_block (sound : LookupSound fs inode 0)
    (opens : Exec.Returns (dirCtxUpdate fs inode 0) ⟨0, buf⟩) (single : inode.size ≤ fs.super.blockSize)
    (starts : start ∈ offsets) (steps : ∀ o ∈ offsets, o < inode.size → ∃ recLen,
      examine buf o = .ok (some recLen) ∧ 0 < recLen ∧ o + recLen < limit ∧ o + recLen ∈ offsets) :
    ChainAdvances fs inode examine start limit := by
  have closed (o : Nat) (member : o ∈ offsets) (inside : o < inode.size) (recLen : Nat)
      (passes : examine buf o = .ok (some recLen)) : o + recLen ∈ offsets := by
    obtain ⟨recLen', examined, _, _, listed⟩ := steps o member inside
    rw [examined] at passes
    cases passes
    exact listed
  refine ⟨sound, ?_⟩
  intro _ _ o chained inside
  obtain ⟨recLen, examined, positive, small, _⟩ := steps o (chained.listed opens single starts closed) inside
  refine ⟨?_, ?_, ?_⟩
  · rw [lblockOf, Nat.div_eq_of_lt (by omega), Nat.zero_mod]
    exact sound
  · intro ctx updates
    obtain ⟨same, within⟩ := block_unique opens single inside updates
    rw [same, within, examined]
    trivial
  · intro ctx recLen' updates passes
    obtain ⟨same, within⟩ := block_unique opens single inside updates
    rw [same, within, examined] at passes
    cases passes
    exact ⟨positive, small⟩

end

theorem directory_scans_end_tree : SearchEnds treeFs (dirInode 12) nameB 1 ∧ ListingEnds treeFs (dirInode 12) 0 := by
  have sound : LookupSound treeFs (dirInode 12) 0 := by
    intro _
    refine ⟨@neverTwice_of_ended _ _ _ 0 (by decide +kernel), by decide, ?_⟩
    intro eh header _
    rw [show extentHeader (dirInode 12).block = .ok ⟨ext4ExtMagic, 1, 0⟩ by decide +kernel] at header
    cases header
    exact .inl (by decide)
  have opens : Exec.Returns (dirCtxUpdate treeFs (dirInode 12) 0) ⟨0, treeDisk.bytes 12288 1024⟩ :=
    @opens_block treeFs (dirInode 12) 12 1 _ _ (by decide +kernel) (by decide) (by decide) (by decide)
  obtain ⟨search, listing⟩ :=
    @directory_scans_end treeFs (dirInode 12) (by decide) nameB 1 0 (by decide)
  have entries {examine : List UInt8 → Nat → Exec Fault (Option Nat)} {limit : Nat} (roomy : 1024 < limit)
      (dot : examine (treeDisk.bytes 12288 1024) 0 = .ok (some 12))
      (dotdot : examine (treeDisk.bytes 12288 1024) 12 = .ok (some 12))
      (last : examine (treeDisk.bytes 12288 1024) 24 = .ok (some 1000)) :
      ChainAdvances treeFs (dirInode 12) examine 0 limit := by
    refine @ChainAdvances.of_block _ _ _ _ _ _ [0, 12, 24, 1024] sound opens (by decide) (by decide) ?_
    intro o member inside
    have size : (dirInode 12).size = 1024 := rfl
    simp only [List.mem_cons, List.not_mem_nil, or_false] at member
    rcases member with rfl | rfl | rfl | rfl
    · exact ⟨12, dot, by decide, by omega, by decide⟩
    · exact ⟨12, dotdot, by decide, by omega, by decide⟩
    · exact ⟨1000, last, by decide, by omega, by decide⟩
    · omega
  constructor
  · exact search.mpr (entries (by decide) (by decide +kernel) (by decide +kernel) (by decide +kernel))
  · exact listing.mpr (entries (by decide) (by decide +kernel) (by decide +kernel) (by decide +kernel))

/-! ## A directory of zeros -/

def zeroDisk : Disk := smallDisk [inodeAt 2 (dirInode 10)]

def zeroFs : Fs := ⟨zeroDisk, smallSuper, [5]⟩

def zeroCtx : DirCtx := ⟨0, zeroDisk.bytes 10240 1024⟩

theorem zeroFs_opens : Exec.Returns (dirCtxUpdate zeroFs (dirInode 10) 0) zeroCtx :=
  @opens_block zeroFs (dirInode 10) 10 1 _ _ (by decide +kernel) (by decide) (by decide) (by decide)

theorem zeroFs_entry (fuel : Nat) :
    inodeDentryGet zeroFs (dirInode 10) 0 zeroCtx fuel = .ok (some 0, zeroCtx) := by
  rw [inodeDentryGet_eq (by decide), if_pos (by decide)]
  rfl

theorem zeroFs_search (fuel : Nat) :
    Exec.loop (dentryPass zeroFs (dirInode 10) nameA 1 fuel) fuel ⟨0, zeroCtx⟩ = .timeout := by
  have reads : nameEntry nameA 1 zeroCtx.buf 0 = .ok (.again 0) := by decide +kernel
  refine Exec.loop_diverges _ (· = ⟨0, zeroCtx⟩) ?_ fuel _ rfl
  rintro s rfl
  refine ⟨_, ?_, rfl⟩
  rw [dentryPass_eq, zeroFs_entry, Exec.ok_bind]
  simp only [reads]
  rfl

theorem zeroFs_listing (fuel : Nat) :
    Exec.loop (readdirPass zeroFs (dirInode 10) none fuel) fuel ⟨0, zeroCtx, []⟩ = .timeout := by
  have reads : printEntry zeroCtx.buf 0 = .ok (0, none) := by decide +kernel
  refine Exec.loop_diverges _ (· = ⟨0, zeroCtx, []⟩) ?_ fuel _ rfl
  rintro s rfl
  refine ⟨_, ?_, rfl⟩
  rw [readdirPass_eq, zeroFs_entry, Exec.ok_bind]
  simp only [reads]
  rfl

theorem directory_scans_loop : opInit zeroDisk = .ok zeroFs ∧
    inodeGetByNumber zeroFs 2 = .ok (some (dirInode 10)) ∧ (dirInode 10).isDir = true ∧
    (∀ fuel, searchDir zeroFs 2 nameA 1 fuel = .timeout) ∧
    (∀ fuel, readdirFrom zeroFs (dirInode 10) 0 none fuel = .timeout) ∧
    ¬ SearchEnds zeroFs (dirInode 10) nameA 1 ∧ ¬ ListingEnds zeroFs (dirInode 10) 0 := by
  have mounted : opInit zeroDisk = .ok zeroFs := opInit_small (by decide +kernel) (by decide +kernel)
  have stored : inodeGetByNumber zeroFs 2 = .ok (some (dirInode 10)) := by decide +kernel
  have opens {ρ : Type} {after : DirCtx → Exec Fault ρ} (never : after zeroCtx = .timeout) (fuel : Nat) :
      (dirCtxUpdate zeroFs (dirInode 10) 0 fuel >>= after) = .timeout :=
    zeroFs_opens.bind_timeout (dirCtxUpdate_growing _ _ _) never fuel
  refine ⟨mounted, stored, by decide, ?_, ?_, ?_, ?_⟩
  · intro fuel
    simp only [searchDir, stored, Exec.ok_bind]
    exact opens (by rw [zeroFs_search]; rfl) fuel
  · intro fuel
    exact opens (zeroFs_listing fuel) fuel
  · rintro ⟨⟨fuel, settled⟩, _⟩
    simp only at settled
    rw [opens (zeroFs_search fuel)] at settled
    exact settled
  · rintro ⟨⟨fuel, settled⟩, _⟩
    simp only at settled
    rw [opens (zeroFs_listing fuel)] at settled
    exact settled

end SampleFs.Proof.Fuse

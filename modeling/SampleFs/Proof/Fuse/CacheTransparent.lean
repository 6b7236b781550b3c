import SampleFs.Lib.Trace
import SampleFs.Proof.Fuse.CacheShape
import SampleFs.Proof.Fuse.PathWalk
import SampleFs.Proof.Fuse.ReadFile

namespace SampleFs.Proof.Fuse
open Lib SampleFs.Fuse

structure CacheBase (d : Dcache) (kids : Nat → List Nat) : Prop where
  shape : Shape d kids
  root : ∃ name, label d 0 = some (rootInodeN, name)

/-- Every cached entry names what its parent's directory holds on disk. -/
structure CacheValid (fs : Fs) (d : Dcache) (kids : Nat → List Nat) : Prop extends CacheBase d kids where
  truth : ∀ a k dir name n entryName, k ∈ kids a → label d a = some (dir, name) →
    label d k = some (n, entryName) → 0 ∉ entryName ∧ Resolves fs dir entryName n

def Points (d : Dcache) (entry : Option Nat) (n : Nat) : Prop := ∃ name, label d (entry.getD 0) = some (n, name)

theorem Points.inside {d : Dcache} {entry : Option Nat} {n : Nat} (points : Points d entry n) :
    entry.getD 0 < d.entries.length := by
  obtain ⟨name, labelled⟩ := points
  obtain ⟨_, found, _⟩ := label_eq_some labelled
  exact (List.getElem?_eq_some_iff.mp found).1

theorem nameMatches_token {entry : DcacheEntry} {path : List UInt8} (noNul : 0 ∉ entry.name)
    (hit : nameMatches entry path (token path).length) : entry.name = token path := by
  rw [← take_length_token path]
  exact (nameMatches_iff noNul).mp hit

/-! ## Following the cache -/

theorem cachedPass_growing (s : CachedWalk) : Exec.Growing fun fuel => cachedPass fuel s := by
  unfold cachedPass
  refine .bind (getPathTokenLen_growing _) fun pathLen => .ite (.const _) ?_
  exact .bind (dcacheLookup_growing ..) fun _ => .const _

theorem cachedPass_ends {s : CachedWalk} (fits : PathFits s.path) (empty : token (skipOne s.path) = []) :
    Exec.Returns (fun fuel => cachedPass fuel s) (.done { s with path := skipOne s.path }) := by
  obtain ⟨fuel, tokens⟩ := fits.skipOne.token
  refine ⟨fuel, ?_⟩
  rw [empty] at tokens
  exact Exec.bind_eq_ok.mpr ⟨0, tokens, rfl⟩

theorem cachedPass_looks (s : CachedWalk) {found : Option Nat} {d' : Dcache} (fits : PathFits s.path)
    (named : token (skipOne s.path) ≠ [])
    (looks : Exec.Returns (dcacheLookup s.d s.next (skipOne s.path) (token (skipOne s.path)).length) (found, d')) :
    Exec.Returns (fun fuel => cachedPass fuel s) (match found with
      | none => .done ⟨skipOne s.path, s.next, d'⟩
      | some k => .again ⟨afterToken (skipOne s.path), some k, d'⟩) := by
  have nonempty : (token (skipOne s.path)).length ≠ 0 := by
    simpa using named
  refine Iff.mpr (Exec.returns_bind_of (getPathTokenLen_growing _) ?_ fits.skipOne.token) ?_
  · exact fun _ => .ite (.const _) (.bind (dcacheLookup_growing ..) fun _ => .const _)
  · simp only [if_neg nonempty]
    refine Iff.mpr (Exec.returns_bind_of (dcacheLookup_growing ..) ?_ looks) ⟨0, ?_⟩
    · exact fun _ => .const _
    · cases found with
      | none => rfl
      | some k =>
          rw [← drop_length_token]
          rfl

theorem CacheValid.turned {fs : Fs} {d d' : Dcache} {kids kids' : Nat → List Nat} (valid : CacheValid fs d kids)
    (shape : Shape d' kids') (labels : label d' = label d) (members : ∀ a k, k ∈ kids' a ↔ k ∈ kids a) :
    CacheValid fs d' kids' := by
  refine ⟨⟨shape, ?_⟩, ?_⟩
  · rw [labels]
    exact valid.root
  · intro a k dir name n entryName member
    rw [labels]
    exact valid.truth a k dir name n entryName ((members a k).mp member)

/-- What `get_cached_inode_num` has done: it has followed some of the components, as the disk would. -/
structure Followed (fs : Fs) (d : Dcache) (path : List UInt8) (dir : Nat) (w : CachedWalk) : Prop where
  valid : ∃ kids, CacheValid fs w.d kids
  fits : PathFits w.path
  steps : ∃ names last, components path = names ++ components w.path ∧ Steps fs dir names last ∧
    Points w.d w.next last

theorem cached_returns {fs : Fs} {d : Dcache} {kids : Nat → List Nat} {path : List UInt8} {next : Option Nat}
    {dir : Nat} (valid : CacheValid fs d kids) (fits : PathFits path) (points : Points d next dir) :
    ∃ w, Exec.Returns (fun fuel => Exec.loop (cachedPass fuel) fuel ⟨path, next, d⟩) w ∧
      Followed fs d path dir w := by
  induction size : path.length using Nat.strong_induction_on generalizing path next d kids dir with
  | _ size ih =>
      subst size
      by_cases empty : token (skipOne path) = []
      · refine ⟨⟨skipOne path, next, d⟩, (Exec.returns_loop cachedPass_growing).mpr
          ⟨_, cachedPass_ends fits empty, rfl⟩, ⟨kids, valid⟩, fits.skipOne, [], dir, ?_, rfl, points⟩
        exact (components_skipOne path).symm
      · obtain ⟨d', kids', looks, shape, labels, _, members⟩ :=
          dcacheLookup_spec valid.shape points.inside (skipOne path) (token (skipOne path)).length
        have turned := valid.turned shape labels members
        cases finds : firstNamed d (kids (next.getD 0)) (skipOne path) (token (skipOne path)).length with
        | none =>
            rw [finds] at looks
            have pass := cachedPass_looks ⟨path, next, d⟩ fits empty looks
            refine ⟨⟨skipOne path, next, d'⟩, (Exec.returns_loop cachedPass_growing).mpr ⟨_, pass, rfl⟩,
              ⟨kids', turned⟩, fits.skipOne, [], dir, (components_skipOne path).symm, rfl, ?_⟩
            rw [Points, labels]
            exact points
        | some k =>
            rw [finds] at looks
            have pass := cachedPass_looks ⟨path, next, d⟩ fits empty looks
            obtain ⟨member, entry, stored, hit⟩ := firstNamed_some finds
            obtain ⟨name, here⟩ := points
            have labelled : label d k = some (entry.inode, entry.name) := by
              rw [label, stored]
              rfl
            obtain ⟨noNul, resolves⟩ := valid.truth _ k dir name _ _ member here labelled
            rw [nameMatches_token noNul hit] at resolves
            have shorter := (afterToken_shorter empty).trans_le (length_skipOne_le path)
            have onward : Points d' (some k) entry.inode := ⟨entry.name, by rw [labels]; exact labelled⟩
            obtain ⟨w, returns, followed⟩ :=
              ih _ shorter turned (fits.skipOne.afterToken empty) onward rfl
            obtain ⟨names, last, split, steps, points'⟩ := followed.steps
            refine ⟨w, (Exec.returns_loop cachedPass_growing).mpr ⟨_, pass, returns⟩, followed.valid, followed.fits,
              token (skipOne path) :: names, last, ?_, ⟨entry.inode, resolves, steps⟩, points'⟩
            rw [← components_skipOne path, components_token empty, split]
            rfl

/-! ## Walking the disk -/

theorem componentPass_growing (fs : Fs) (s : PathWalk) : Exec.Growing fun fuel => componentPass fs fuel s := by
  unfold componentPass
  refine .bind (getPathTokenLen_growing _) fun pathLen => .ite (.const _) ?_
  exact .bind (searchDir_growing ..) fun _ => .const _

theorem componentPass_ends {fs : Fs} {s : PathWalk} (skips : skipTrailingBackslash s.path = []) :
    Exec.Returns (fun fuel => componentPass fs fuel s) (.done (s.inodeIdx, s.d)) := by
  refine ⟨1, ?_⟩
  simp [componentPass, skips, getPathTokenLen, Exec.loop, tokenPass]

theorem componentPass_iff {fs : Fs} {s : PathWalk} {path : List UInt8} {p : Pass PathWalk (Nat × Dcache)}
    (skips : skipTrailingBackslash s.path = path) (fits : PathFits path) (named : token path ≠ []) :
    Exec.Returns (fun fuel => componentPass fs fuel s) p ↔ ∃ found, Finds fs s.inodeIdx (token path) found ∧
      followDentry s path (token path).length found = .ok p := by
  have nonempty : (token path).length ≠ 0 := by
    simpa using named
  subst skips
  refine Iff.trans (Exec.returns_bind_of (getPathTokenLen_growing _) ?_ fits.token) ?_
  · exact fun _ => .ite (.const _) (.bind (searchDir_growing ..) fun _ => .const _)
  · simp only [if_neg nonempty]
    refine Iff.trans (Exec.returns_bind (searchDir_growing ..) ?_) ?_
    · exact fun _ => .const _
    · simp only [Finds, ← searchDir_token, Exec.returns_const]

theorem Inserted.base {d d' : Dcache} {kids kids' : Nat → List Nat} {address : Nat} {entry : DcacheEntry}
    (base : CacheBase d kids) (inserted : Inserted d d' kids kids' address entry) : CacheBase d' kids' := by
  obtain ⟨name, root⟩ := base.root
  have points : Points d none rootInodeN := ⟨name, root⟩
  have inside : 0 < d.entries.length := points.inside
  exact ⟨inserted.shape, name, (inserted.old 0 inside).trans root⟩

theorem Inserted.valid {fs : Fs} {d d' : Dcache} {kids kids' : Nat → List Nat} {address dir : Nat}
    {entry : DcacheEntry} {above : List UInt8} (valid : CacheValid fs d kids)
    (inserted : Inserted d d' kids kids' address entry) (parent : label d address = some (dir, above))
    (noNul : 0 ∉ entry.name) (resolves : Resolves fs dir entry.name entry.inode) : CacheValid fs d' kids' := by
  refine ⟨inserted.base valid.toCacheBase, ?_⟩
  intro a k dir' name n entryName member left right
  rcases (inserted.members a k).mp member with old | ⟨rfl, rfl⟩
  · obtain ⟨elder, less⟩ := valid.shape.younger a k old
    rw [inserted.old a (Nat.lt_trans elder less)] at left
    rw [inserted.old k less] at right
    exact valid.truth a k dir' name n entryName old left right
  · obtain ⟨_, stored, _⟩ := label_eq_some parent
    rw [inserted.old a (List.getElem?_eq_some_iff.mp stored).1, parent] at left
    rw [inserted.new] at right
    cases left
    cases right
    exact ⟨noNul, resolves⟩

def Added (isDir : Bool) (name : List UInt8) : Prop := isDir = true ∧ name.length + 1 ≤ dcacheEntryNameLen

/-- The inode of the entry that the next name is hung under: the one just added, the root after a name
that does not fit in an entry, and the one before where the walk has left the directories. -/
def nextAnchor (anchor n : Nat) (isDir : Bool) (name : List UInt8) : Nat :=
  if isDir then if name.length + 1 > dcacheEntryNameLen then rootInodeN else n else anchor

/-- Every name the walk adds to the cache is found in the directory of the entry it is hung under. -/
def Sound (fs : Fs) : (anchor dir : Nat) → (names : List (List UInt8)) → Prop
  | _, _, [] => True
  | anchor, dir, name :: rest => ∀ isDir n, Finds fs dir name (isDir, some n) →
      (Added isDir name → Resolves fs anchor name n) ∧ Sound fs (nextAnchor anchor n isDir name) n rest

structure Remembered (fs : Fs) (s : PathWalk) (kids : Nat → List Nat) (anchor n : Nat) (isDir : Bool)
    (name : List UInt8) (dcEntry : Option Nat) (d' : Dcache) (kids' : Nat → List Nat) : Prop where
  base : CacheBase d' kids'
  points : Points d' dcEntry (nextAnchor anchor n isDir name)
  valid : CacheValid fs s.d kids → (Added isDir name → Resolves fs anchor name n) → CacheValid fs d' kids'

theorem rememberDentry_spec (fs : Fs) {s : PathWalk} {kids : Nat → List Nat} {path : List UInt8} {anchor : Nat}
    (base : CacheBase s.d kids) (points : Points s.d s.dcEntry anchor) (noNul : 0 ∉ path) (isDir : Bool) (n : Nat) :
    ∃ dcEntry d' kids', rememberDentry s path (token path).length isDir n = .ok (dcEntry, d') ∧
      Remembered fs s kids anchor n isDir (token path) dcEntry d' kids' := by
  cases isDir with
  | false => exact ⟨s.dcEntry, s.d, kids, rfl, base, points, fun valid _ => valid⟩
  | true =>
      by_cases long : (token path).length + 1 > dcacheEntryNameLen
      · refine ⟨none, s.d, kids, ?_, base, ?_, fun valid _ => valid⟩
        · rw [rememberDentry, if_pos rfl, dcacheInsert, if_pos long]
          rfl
        · rw [nextAnchor, if_pos rfl, if_pos long]
          exact base.root
      · have rooted : s.dcEntry = none → ∀ root, s.d.entries[0]? = some root → root.inode ≠ 0 := by
          intro _ root stored
          obtain ⟨name, labelled⟩ := base.root
          obtain ⟨_, same, inode, _⟩ := label_eq_some labelled
          rw [stored] at same
          cases same
          rw [inode]
          decide
        have short : (token path).length < dcacheEntryNameLen := by omega
        obtain ⟨d', kids', entry, inserts, inserted, rfl, named⟩ :=
          dcacheInsert_spec base.shape points.inside rooted path short n
        rw [take_length_token] at named
        refine ⟨_, d', kids', inserts, inserted.base base, ?_, ?_⟩
        · rw [nextAnchor, if_pos rfl, if_neg long]
          exact ⟨entry.name, inserted.new⟩
        · intro valid resolves
          obtain ⟨above, parent⟩ := points
          refine inserted.valid valid parent ?_ ?_
          · rw [named]
            exact fun member => noNul ((List.takeWhile_sublist _).subset member)
          · rw [named]
            exact resolves ⟨rfl, by omega⟩

def walkFrom (fs : Fs) (s : PathWalk) (fuel : Nat) : Exec Fault (Nat × Dcache) :=
  Exec.loop (componentPass fs fuel) fuel s

theorem walkFrom_nil {fs : Fs} {s : PathWalk} {result : Nat × Dcache} (skips : skipTrailingBackslash s.path = []) :
    Exec.Returns (walkFrom fs s) result ↔ (s.inodeIdx, s.d) = result := by
  unfold walkFrom
  rw [Exec.returns_loop (componentPass_growing fs)]
  constructor
  · intro ⟨p, pass, leaves⟩
    cases Exec.Returns.unique (componentPass_growing fs s) pass (componentPass_ends skips)
    exact leaves
  · intro leaves
    exact ⟨_, componentPass_ends skips, leaves⟩

theorem walkFrom_cons {fs : Fs} {s : PathWalk} {path : List UInt8} {result : Nat × Dcache}
    (skips : skipTrailingBackslash s.path = path) (fits : PathFits path) (named : token path ≠ []) :
    Exec.Returns (walkFrom fs s) result ↔ ∃ isDir found, Finds fs s.inodeIdx (token path) (isDir, found) ∧
      match found with
      | none => (0, s.d) = result
      | some n => ∃ dcEntry d', rememberDentry s path (token path).length isDir n = .ok (dcEntry, d') ∧
          Exec.Returns (walkFrom fs ⟨afterToken path, n, dcEntry, d'⟩) result := by
  unfold walkFrom
  rw [Exec.returns_loop (componentPass_growing fs)]
  constructor
  · intro ⟨p, pass, next⟩
    obtain ⟨⟨isDir, found⟩, finds, follows⟩ := (componentPass_iff skips fits named).mp pass
    refine ⟨isDir, found, finds, ?_⟩
    cases found with
    | none =>
        cases follows
        exact next
    | some n =>
        obtain ⟨⟨dcEntry, d'⟩, remembers, goes⟩ := Exec.bind_eq_ok.mp follows
        refine ⟨dcEntry, d', remembers, ?_⟩
        rcases strchr_slash path with later | ⟨last, empty⟩
        · rw [later] at goes
          cases goes
          exact next
        · rw [last] at goes
          cases goes
          exact (walkFrom_nil (by rw [empty]; rfl)).mpr next
  · intro ⟨isDir, found, finds, next⟩
    cases found with
    | none => exact ⟨_, (componentPass_iff skips fits named).mpr ⟨_, finds, rfl⟩, next⟩
    | some n =>
        obtain ⟨dcEntry, d', remembers, rest⟩ := next
        rcases strchr_slash path with later | ⟨last, empty⟩
        · refine ⟨.again ⟨afterToken path, n, dcEntry, d'⟩, (componentPass_iff skips fits named).mpr
            ⟨_, finds, Exec.bind_eq_ok.mpr ⟨_, remembers, ?_⟩⟩, rest⟩
          rw [later]
          rfl
        · refine ⟨.done (n, d'), (componentPass_iff skips fits named).mpr
            ⟨_, finds, Exec.bind_eq_ok.mpr ⟨_, remembers, ?_⟩⟩, ?_⟩
          · rw [last]
            rfl
          · exact (walkFrom_nil (by rw [empty]; rfl)).mp rest

theorem walkFrom_iff {fs : Fs} {names : List (List UInt8)} {s : PathWalk} {kids : Nat → List Nat}
    {anchor result : Nat} (base : CacheBase s.d kids) (points : Points s.d s.dcEntry anchor) (fits : PathFits s.path)
    (split : components s.path = names) :
    (∃ d', Exec.Returns (walkFrom fs s) (result, d')) ↔ Walks fs s.inodeIdx names result := by
  induction names generalizing s kids anchor with
  | nil =>
      have skips := skip_of_components_nil split
      constructor
      · intro ⟨d', returns⟩
        cases (walkFrom_nil skips).mp returns
        rfl
      · intro same
        exact ⟨s.d, (walkFrom_nil skips).mpr (by rw [show result = s.inodeIdx from same])⟩
  | cons name rest ih =>
      obtain ⟨q, skips, kept, named, rfl, later, after⟩ := components_split fits split
      constructor
      · intro ⟨d', returns⟩
        obtain ⟨isDir, found, finds, next⟩ := (walkFrom_cons skips kept named).mp returns
        refine ⟨isDir, found, finds, ?_⟩
        cases found with
        | none =>
            cases next
            rfl
        | some n =>
            obtain ⟨dcEntry, d₁, remembers, returns'⟩ := next
            obtain ⟨_, _, kids', remembers', remembered⟩ :=
              rememberDentry_spec fs base points kept.noNul isDir n
            rw [remembers] at remembers'
            cases remembers'
            exact (ih (s := ⟨afterToken q, n, dcEntry, d₁⟩) remembered.base remembered.points after later).mp ⟨d', returns'⟩
      · intro ⟨isDir, found, finds, next⟩
        cases found with
        | none => exact ⟨s.d, (walkFrom_cons skips kept named).mpr ⟨isDir, none, finds, by rw [show result = 0 from next]⟩⟩
        | some n =>
            obtain ⟨dcEntry, d₁, kids', remembers, remembered⟩ :=
              rememberDentry_spec fs base points kept.noNul isDir n
            obtain ⟨d', returns⟩ :=
              (ih (s := ⟨afterToken q, n, dcEntry, d₁⟩) remembered.base remembered.points after later).mpr next
            exact ⟨d', (walkFrom_cons skips kept named).mpr ⟨isDir, some n, finds, dcEntry, d₁, remembers, returns⟩⟩

theorem walkFrom_valid {fs : Fs} {names : List (List UInt8)} {s : PathWalk} {kids : Nat → List Nat}
    {anchor result : Nat} {d' : Dcache} (valid : CacheValid fs s.d kids) (points : Points s.d s.dcEntry anchor)
    (fits : PathFits s.path) (split : components s.path = names) (sound : Sound fs anchor s.inodeIdx names)
    (returns : Exec.Returns (walkFrom fs s) (result, d')) : ∃ kids', CacheValid fs d' kids' := by
  induction names generalizing s kids anchor with
  | nil =>
      cases (walkFrom_nil (skip_of_components_nil split)).mp returns
      exact ⟨kids, valid⟩
  | cons name rest ih =>
      obtain ⟨q, skips, kept, named, rfl, later, after⟩ := components_split fits split
      obtain ⟨isDir, found, finds, next⟩ := (walkFrom_cons skips kept named).mp returns
      cases found with
      | none =>
          cases next
          exact ⟨kids, valid⟩
      | some n =>
          obtain ⟨dcEntry, d₁, remembers, returns'⟩ := next
          obtain ⟨_, _, kids', remembers', remembered⟩ :=
            rememberDentry_spec fs valid.toCacheBase points kept.noNul isDir n
          rw [remembers] at remembers'
          cases remembers'
          obtain ⟨resolves, onward⟩ := sound isDir n finds
          exact ih (s := ⟨afterToken q, n, dcEntry, d₁⟩) (remembered.valid valid resolves) remembered.points
            after later onward returns'

/-! ## Whole calls -/

def lookupStep (fs : Fs) : System Dcache (List UInt8) Nat := fun d path n d' =>
  path.getD 0 0 = slash ∧ PathFits path ∧ Exec.Returns (inodeGetIdxByPath fs d path) (n, d')

/-- The part of the path that the cache does not know is walked without a false entry. -/
def SoundCall (fs : Fs) (d : Dcache) (path : List UInt8) : Prop :=
  ∀ w dir, Exec.Returns (getCachedInodeNum d path) w → Points w.d w.next dir →
    Sound fs dir dir (components w.path)

theorem dcacheGetInode_eq {d : Dcache} {entry : Option Nat} {n : Nat} :
    dcacheGetInode d entry = .ok n ↔ Points d entry n := by
  constructor
  · intro gets
    obtain ⟨found, loads, same⟩ := Exec.bind_eq_ok.mp gets
    cases same
    cases stored : d.entries[entry.getD 0]? with
    | none => simp [Dcache.load, stored] at loads
    | some other =>
        rw [load_eq stored] at loads
        cases loads
        exact ⟨found.name, by rw [label, stored]; rfl⟩
  · intro points
    obtain ⟨name, labelled⟩ := points
    obtain ⟨found, stored, rfl, _⟩ := label_eq_some labelled
    rw [dcacheGetInode, load_eq stored]
    rfl

theorem getCachedInodeNum_growing (d : Dcache) (path : List UInt8) : Exec.Growing (getCachedInodeNum d path) :=
  Exec.Growing.loop cachedPass_growing _

theorem inodeGetIdxByPath_iff {fs : Fs} {d : Dcache} {path : List UInt8} {result : Nat × Dcache}
    (absolute : path.getD 0 0 = slash) {w : CachedWalk} (cached : Exec.Returns (getCachedInodeNum d path) w)
    {dir : Nat} (points : Points w.d w.next dir) :
    Exec.Returns (inodeGetIdxByPath fs d path) result ↔
      Exec.Returns (walkFrom fs ⟨w.path, dir, w.next, w.d⟩) result := by
  have inode := dcacheGetInode_eq.mpr points
  unfold inodeGetIdxByPath
  simp only [Exec.check_pos _ absolute, Exec.ok_bind]
  refine Iff.trans (Exec.returns_bind_of (getCachedInodeNum_growing d path) ?_ cached) ?_
  · exact fun _ => .bind (.const _) fun _ => .loop (componentPass_growing fs) _
  · simp only [inode, Exec.ok_bind]
    rfl

theorem inodeGetIdxByPath_walks {fs : Fs} {d : Dcache} {kids : Nat → List Nat} {path : List UInt8} {n : Nat}
    (valid : CacheValid fs d kids) (absolute : path.getD 0 0 = slash) (fits : PathFits path) :
    (∃ d', Exec.Returns (inodeGetIdxByPath fs d path) (n, d')) ↔ Walks fs rootInodeN (components path) n := by
  have root : Points d none rootInodeN := valid.root
  obtain ⟨w, cached, followed⟩ := cached_returns valid fits root
  obtain ⟨kids', valid'⟩ := followed.valid
  obtain ⟨names, last, split, steps, points⟩ := followed.steps
  rw [split, Walks.through steps, ← walkFrom_iff (s := ⟨w.path, last, w.next, w.d⟩) valid'.toCacheBase points
    followed.fits rfl]
  constructor
  · intro ⟨d', returns⟩
    exact ⟨d', (inodeGetIdxByPath_iff absolute cached points).mp returns⟩
  · intro ⟨d', returns⟩
    exact ⟨d', (inodeGetIdxByPath_iff absolute cached points).mpr returns⟩

theorem lookupStep_valid {fs : Fs} {d d' : Dcache} {path : List UInt8} {n : Nat}
    (valid : ∃ kids, CacheValid fs d kids) (step : guarded (SoundCall fs) (lookupStep fs) d path n d') :
    ∃ kids, CacheValid fs d' kids := by
  obtain ⟨kids, valid⟩ := valid
  obtain ⟨sound, absolute, fits, returns⟩ := step
  have root : Points d none rootInodeN := valid.root
  obtain ⟨w, cached, followed⟩ := cached_returns valid fits root
  obtain ⟨kids', valid'⟩ := followed.valid
  obtain ⟨_, last, _, _, points⟩ := followed.steps
  exact walkFrom_valid (s := ⟨w.path, last, w.next, w.d⟩) valid' points followed.fits rfl
    (sound w last cached points) ((inodeGetIdxByPath_iff absolute cached points).mp returns)

theorem inodeInit_valid (fs : Fs) : CacheValid fs inodeInit fun _ => [] := by
  refine ⟨⟨Shape.init rootInodeN, [], rfl⟩, ?_⟩
  intro a k dir name n entryName member
  cases member

theorem dcache_transparent {fs : Fs} {history : List (List UInt8 × Nat)} {d : Dcache}
    (run : Run (guarded (SoundCall fs) (lookupStep fs)) inodeInit history d) {path : List UInt8}
    (absolute : path.getD 0 0 = slash) (fits : PathFits path) (n : Nat) :
    (∃ d', Exec.Returns (inodeGetIdxByPath fs d path) (n, d')) ↔
      ∃ d', Exec.Returns (inodeGetIdxByPath fs inodeInit path) (n, d') := by
  obtain ⟨kids, valid⟩ := run.invariant (fun d => ∃ kids, CacheValid fs d kids)
    (fun _ _ _ _ => lookupStep_valid) ⟨_, inodeInit_valid fs⟩
  rw [inodeGetIdxByPath_walks valid absolute fits, inodeGetIdxByPath_walks (inodeInit_valid fs) absolute fits]

/-! ## A directory whose name does not fit in an entry -/

theorem inodeGetIdxByPath_growing (fs : Fs) (d : Dcache) (path : List UInt8) :
    Exec.Growing (inodeGetIdxByPath fs d path) := by
  unfold inodeGetIdxByPath
  refine .bind (.const _) fun _ => .bind (getCachedInodeNum_growing d path) fun cached => .bind (.const _) fun _ => ?_
  exact .loop (componentPass_growing fs) _

def dentry (inode recLen : Nat) (name : List UInt8) : List UInt8 :=
  leBytes 4 inode ++ leBytes 2 recLen ++ leBytes 1 name.length ++ leBytes 1 2 ++ name

def dirInode (block : Nat) : Inode :=
  ⟨0x41ed, 1024, 0x80000, leafNode [⟨0, 1, 0, block⟩] ++ List.replicate 36 0⟩

def longName : List UInt8 := List.replicate 40 0x78
def nameA : List UInt8 := [0x61]
def nameB : List UInt8 := [0x62]

def dots (self parent : Nat) : List UInt8 := dentry self 12 [0x2e] ++ [0, 0, 0] ++ dentry parent 12 [0x2e, 0x2e] ++ [0, 0]

/-- The root holds `b` and a directory with a name of 40 bytes, and that one holds `a`. -/
def longDisk : Disk := smallDisk [inodeAt 2 (dirInode 10), inodeAt 12 (dirInode 11),
  (10240, dots 2 2 ++ dentry 14 12 nameB ++ [0, 0, 0] ++ dentry 12 988 longName),
  (11264, dots 12 2 ++ dentry 13 1000 nameA)]

def longFs : Fs := ⟨longDisk, smallSuper, [5]⟩

def cacheOf (n : Nat) (name : List UInt8) : Dcache := ⟨[⟨some 1, none, 2, []⟩, ⟨none, some 1, n, name⟩]⟩

theorem longFs_mounted : opInit longDisk = .ok longFs := opInit_small (by decide +kernel) (by decide +kernel)

theorem dcache_transparent_b : Run (guarded (SoundCall longFs) (lookupStep longFs)) inodeInit
      [(slash :: nameB, 14)] (cacheOf 14 nameB) ∧
    ((∃ d', Exec.Returns (inodeGetIdxByPath longFs (cacheOf 14 nameB) (slash :: nameB)) (14, d')) ↔
      ∃ d', Exec.Returns (inodeGetIdxByPath longFs inodeInit (slash :: nameB)) (14, d')) := by
  have fits : PathFits (slash :: nameB) := .of_length (by decide) (by decide)
  have sound : SoundCall longFs inodeInit (slash :: nameB) := by
    intro w dir cached _
    have runs : getCachedInodeNum inodeInit (slash :: nameB) 5 = .ok ⟨nameB, none, inodeInit⟩ := by decide +kernel
    cases Exec.Returns.unique (getCachedInodeNum_growing _ _) cached ⟨5, runs⟩
    have whole : components nameB = [nameB] := by
      rw [components_token (by decide), components_nil (by decide)]
      rfl
    rw [whole]
    intro isDir n finds
    exact ⟨fun _ => ⟨isDir, finds⟩, trivial⟩
  have run : Run (guarded (SoundCall longFs) (lookupStep longFs)) inodeInit [(slash :: nameB, 14)] (cacheOf 14 nameB) :=
    .single ⟨sound, rfl, fits, 10, by decide +kernel⟩
  exact ⟨run, dcache_transparent run rfl fits 14⟩

theorem dcache_long_name : opInit longDisk = .ok longFs ∧
    Run (lookupStep longFs) inodeInit [(slash :: (longName ++ slash :: nameA), 13)] (cacheOf 13 nameA) ∧
    Exec.Returns (inodeGetIdxByPath longFs (cacheOf 13 nameA) (slash :: nameA)) (13, cacheOf 13 nameA) ∧
    ¬ ∃ d', Exec.Returns (inodeGetIdxByPath longFs inodeInit (slash :: nameA)) (13, d') := by
  refine ⟨longFs_mounted, ?_, ⟨10, by decide +kernel⟩, ?_⟩
  · exact .single ⟨rfl, .of_length (by decide) (by decide), 60, by decide +kernel⟩
  · intro ⟨d', returns⟩
    have runs : inodeGetIdxByPath longFs inodeInit (slash :: nameA) 10 = .ok (0, inodeInit) := by decide +kernel
    have same := Exec.Returns.unique (inodeGetIdxByPath_growing _ _ _) ⟨10, runs⟩ returns
    exact absurd (Prod.mk.inj same).1 (by decide)

end SampleFs.Proof.Fuse

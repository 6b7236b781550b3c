import Mathlib.Logic.Relation
import SampleFs.Proof.Fuse.CacheWrites
import SampleFs.Proof.Fuse.Session

namespace SampleFs.Proof.Fuse
open Lib SampleFs.Fuse

/-! ## A thread that nobody interrupts -/

def Moves (fs : Fs) (before after : Dcache × ThreadPoint) : Prop := Exec.Returns (threadStep fs before.1 before.2) after

abbrev Alone (fs : Fs) : Dcache × ThreadPoint → Dcache × ThreadPoint → Prop := Relation.ReflTransGen (Moves fs)

section
variable {fs : Fs} {d d' : Dcache} {path : List UInt8} {ret : Option Nat} {pathLen : Nat}

theorem Alone.step {final : Dcache × ThreadPoint} {point point' : ThreadPoint} (fuel : Nat)
    (moves : threadStep fs d point fuel = .ok (d', point')) (rest : Alone fs (d', point') final) :
    Alone fs (d, point) final :=
  .head ⟨fuel, moves⟩ rest

def afterLookup (d : Dcache) (path : List UInt8) (pathLen : Nat) (ret : Option Nat) : Option Nat → Dcache × ThreadPoint
  | none => (d, .getInode path ret)
  | some k => (d, .lookup path pathLen ret (.found (some k)))

theorem siblings_alone {above : DcacheEntry} {first : Nat} (stored : d.entries[ret.getD 0]? = some above)
    (childs : above.childs = some first) {fuel iter : Nat} {found : Option Nat}
    (runs : Exec.loop (siblingPass d first path pathLen) fuel iter = .ok found) :
    Alone fs (d, .lookup path pathLen ret (.compare (some iter))) (afterLookup d path pathLen ret found) := by
  induction fuel generalizing iter with
  | zero => cases runs
  | succ fuel ih =>
      obtain ⟨pass, here, later⟩ := Exec.bind_eq_ok.mp runs
      obtain ⟨entry, loads, tested⟩ := Exec.bind_eq_ok.mp here
      by_cases hit : nameMatches entry path pathLen
      · rw [if_pos hit] at tested
        cases tested
        cases later
        refine .step 0 ?_ .refl
        simp [threadStep, dcacheLookupStep, loads, hit]
      · rw [if_neg hit] at tested
        cases linked : entry.siblings with
        | none =>
            rw [linked] at tested
            cases tested
        | some next =>
            rw [linked] at tested
            have compares : threadStep fs d (.lookup path pathLen ret (.compare (some iter))) 0 =
                .ok (d, .lookup path pathLen ret (.next (some iter))) := by
              simp [threadStep, dcacheLookupStep, loads, hit]
            have advances : threadStep fs d (.lookup path pathLen ret (.next (some iter))) 0 =
                .ok (d, .lookup path pathLen ret (.until (some next))) := by
              simp [threadStep, dcacheLookupStep, loads, linked]
            refine .step 0 compares (.step 0 advances ?_)
            by_cases back : next = first
            · simp only [if_pos back] at tested
              cases tested
              cases later
              refine .step 0 ?_ .refl
              simp [threadStep, dcacheLookupStep, load_eq stored, childs, back]
            · simp only [if_neg back] at tested
              cases tested
              refine .step 0 ?_ (ih later)
              simp [threadStep, dcacheLookupStep, load_eq stored, childs, back]

def lookupEnds (path : List UInt8) (pathLen : Nat) (ret : Option Nat) : Option Nat → ThreadPoint
  | none => .getInode path ret
  | some k => .cached (path.drop pathLen) (some k)

theorem lookup_alone {fuel : Nat} {found : Option Nat} (runs : dcacheLookup d ret path pathLen fuel = .ok (found, d')) :
    Alone fs (d, .lookup path pathLen ret .test) (d', lookupEnds path pathLen ret found) := by
  obtain ⟨above, loads, rest⟩ := Exec.bind_eq_ok.mp runs
  cases childs : above.childs with
  | none =>
      rw [childs] at rest
      cases rest
      refine .step 0 ?_ .refl
      simp [threadStep, dcacheLookupStep, loads, childs, lookupEnds]
  | some first =>
      rw [childs] at rest
      obtain ⟨result, loops, ends⟩ := Exec.bind_eq_ok.mp rest
      have stored : d.entries[ret.getD 0]? = some above := by
        unfold Dcache.load at loads
        split at loads
        next => cases loads
        next address same =>
          cases same
          split at loads
          next entry stored =>
            cases loads
            exact stored
          next => cases loads
      have tests : threadStep fs d (.lookup path pathLen ret .test) 0 = .ok (d, .lookup path pathLen ret .first) := by
        simp [threadStep, dcacheLookupStep, loads, childs]
      have begins : threadStep fs d (.lookup path pathLen ret .first) 0 =
          .ok (d, .lookup path pathLen ret (.compare (some first))) := by
        simp [threadStep, dcacheLookupStep, loads, childs]
      refine .step 0 tests (.step 0 begins (.trans (siblings_alone stored childs loops) ?_))
      cases result with
      | none =>
          cases ends
          exact .refl
      | some k =>
          cases ends
          refine Alone.step 0 ?_ .refl
          simp [threadStep, dcacheLookupStep, loads, lookupEnds]

theorem cached_alone {outer fuel : Nat} {w : CachedWalk}
    (runs : Exec.loop (cachedPass outer) fuel ⟨path, ret, d⟩ = .ok w) :
    Alone fs (d, .cached path ret) (w.d, .getInode w.path w.next) := by
  induction fuel generalizing path ret d with
  | zero => cases runs
  | succ fuel ih =>
      obtain ⟨pass, here, later⟩ := Exec.bind_eq_ok.mp runs
      obtain ⟨pathLen, tokens, rest⟩ := Exec.bind_eq_ok.mp here
      by_cases empty : pathLen = 0
      · rw [if_pos empty] at rest
        cases rest
        cases later
        refine .step outer ?_ .refl
        simp only [threadStep, tokens, Exec.ok_bind, if_pos empty]
        rfl
      · rw [if_neg empty] at rest
        obtain ⟨⟨found, d₁⟩, looks, goes⟩ := Exec.bind_eq_ok.mp rest
        have starts : threadStep fs d (.cached path ret) outer = .ok (d, .lookup (skipOne path) pathLen ret .test) := by
          simp only [threadStep, tokens, Exec.ok_bind, if_neg empty]
          rfl
        refine .step outer starts (.trans (lookup_alone looks) ?_)
        cases found with
        | none =>
            cases goes
            cases later
            exact .refl
        | some k =>
            cases goes
            exact ih later

/-! ## Insertion -/

theorem relink_push (entry : DcacheEntry) (siblings : Option Nat) :
    relink (push d entry) d.entries.length siblings = push d { entry with siblings } := by
  unfold relink push
  congr 1
  apply List.ext_getElem?
  intro j
  rw [List.getElem?_modify, List.getElem?_append, List.getElem?_append]
  by_cases old : j < d.entries.length
  · simp [old, Nat.ne_of_gt old]
  · rw [if_neg old, if_neg old]
    by_cases new : d.entries.length = j
    · subst new
      simp
    · rw [List.getElem?_eq_none (by simp only [List.length_singleton]; omega),
        List.getElem?_eq_none (by simp only [List.length_singleton]; omega)]
      rfl

theorem step_empty {a f n : Nat} (inside : a < d.entries.length) (held : childOf d a = none) :
    threadStep fs d (.insert path n a f .test) 0 = .ok (d, .insert path n a f .alone) := by
  have stored := List.getElem?_eq_getElem inside
  rw [childOf_stored stored] at held
  simp [threadStep, dcacheInsertStep, load_eq stored, held]

theorem step_alone {a f n : Nat} (inside : f < d.entries.length) : threadStep fs d (.insert path n a f .alone) 0 =
    .ok (relink d f (some f), .insert path n a f .publish) := by
  have stored := List.getElem?_eq_getElem inside
  have writes := store_eq_modify stored fun entry => { entry with siblings := some f }
  simp only [threadStep, dcacheInsertStep, load_eq stored, Exec.ok_bind, Exec.pure_eq, writes]
  rfl

theorem insert_alone {kids : Nat → List Nat} (shape : Shape d kids) {dcEntry next : Option Nat} {n : Nat}
    (inside : dcEntry.getD 0 < d.entries.length) (runs : dcacheInsert d dcEntry path pathLen n = .ok (next, d')) :
    ∃ after, dcacheInsertAlloc d dcEntry path pathLen n = .ok after ∧
      Alone fs after (d', nextComponent path n next) := by
  unfold dcacheInsert at runs
  unfold dcacheInsertAlloc
  by_cases long : pathLen + 1 > dcacheEntryNameLen
  · rw [if_pos long] at runs ⊢
    cases runs
    exact ⟨_, rfl, .refl⟩
  rw [if_neg long] at runs ⊢
  have stored := List.getElem?_eq_getElem inside
  generalize d.entries[dcEntry.getD 0] = above at stored
  obtain ⟨loaded, loads, checks⟩ := Exec.bind_eq_ok.mp runs
  cases (load_eq stored).symm.trans loads
  obtain ⟨_, passes, rest⟩ := Exec.bind_eq_ok.mp checks
  rw [loads, Exec.ok_bind, passes, Exec.ok_bind]
  refine ⟨(push d ⟨none, none, n, path.take pathLen⟩, .insert path n (dcEntry.getD 0) d.entries.length .test), rfl, ?_⟩
  have size := push_size d ⟨none, none, n, path.take pathLen⟩
  have children : childOf (push d ⟨none, none, n, path.take pathLen⟩) (dcEntry.getD 0) = above.childs :=
    (push_childs rfl _).trans (childOf_stored stored)
  cases childs : above.childs with
  | none =>
      rw [childs] at rest children
      cases rest
      refine Alone.step 0 (step_empty (by omega) children) (Alone.step 0 (step_alone (by omega)) (Alone.step 0
        (step_publish (by rw [length_relink]; omega)) ?_))
      have above' : (push d ⟨none, some d.entries.length, n, path.take pathLen⟩).entries[dcEntry.getD 0]? = some above := by
        rw [push_old inside.ne]
        exact stored
      have writes := store_eq_modify above' fun entry => { entry with childs := some d.entries.length }
      rw [relink_push, rehead, ← writes]
      exact .refl
  | some first =>
      rw [childs] at rest children
      obtain ⟨others, listed⟩ := shape.headed stored childs
      have member : first ∈ kids (dcEntry.getD 0) := by
        rw [listed]
        exact List.mem_cons_self
      obtain ⟨elder, young⟩ := shape.younger _ first member
      obtain ⟨s, _, linked⟩ := (shape.rings _).next_mem member
      have held := List.getElem?_eq_getElem young
      generalize d.entries[first] = head at held
      obtain ⟨found, reads, rest⟩ := Exec.bind_eq_ok.mp rest
      cases (load_eq held).symm.trans reads
      have siblings : head.siblings = some s := (siblingOf_stored held).symm.trans linked
      rw [siblings] at rest
      cases rest
      have follows : siblingOf (push d ⟨none, none, n, path.take pathLen⟩) first = some s := by
        rw [siblingOf, push_old young.ne]
        exact linked
      have again : childOf (relink (push d ⟨none, none, n, path.take pathLen⟩) d.entries.length (some s))
          (dcEntry.getD 0) = some first := (childOf_relink _ _).trans children
      refine Alone.step 0 (step_test children) (Alone.step 0 (step_head children) (Alone.step 0 (step_tail follows) ?_))
      refine Alone.step 0 (step_link (by omega)) (Alone.step 0 (step_again again) ?_)
      refine Alone.step 0 (step_hook (by rw [length_relink]; omega)) (Alone.step 0
        (step_publish (by rw [length_relink, length_relink]; omega)) ?_)
      have head' : (push d ⟨none, some s, n, path.take pathLen⟩).entries[first]? = some head := by
        rw [push_old young.ne]
        exact held
      have hooks := store_eq_modify head' fun entry => { entry with siblings := some d.entries.length }
      have above' : (relink (push d ⟨none, some s, n, path.take pathLen⟩) first (some d.entries.length)).entries[
          dcEntry.getD 0]? = some above := by
        rw [entries_relink, push_old inside.ne, stored, Option.map_some, if_neg (by omega)]
      have writes := store_eq_modify above' fun entry => { entry with childs := some d.entries.length }
      rw [relink_push, rehead, ← writes, relink, ← hooks]
      exact .refl

/-! ## The whole call -/

theorem getPathTokenLen_eq (fits : PathFits path) {fuel len : Nat} (runs : getPathTokenLen path fuel = .ok len) :
    len = (token path).length :=
  Exec.Returns.unique (getPathTokenLen_growing path) ⟨fuel, runs⟩ fits.token

/-- What a pass of the component loop does, a thread does in some steps. -/
theorem pass_alone {kids : Nat → List Nat} {s : PathWalk} {anchor fuel : Nat} {pass : Pass PathWalk (Nat × Dcache)}
    (base : CacheBase s.d kids) (points : Points s.d s.dcEntry anchor) (fits : PathFits s.path)
    (runs : componentPass fs fuel s = .ok pass) :
    match pass with
    | .again s' => Alone fs (s.d, .walk s.path s.inodeIdx s.dcEntry) (s'.d, .walk s'.path s'.inodeIdx s'.dcEntry) ∧
        PathFits s'.path ∧ ∃ kids' anchor', CacheBase s'.d kids' ∧ Points s'.d s'.dcEntry anchor'
    | .done (n, d') => Alone fs (s.d, .walk s.path s.inodeIdx s.dcEntry) (d', .done n) := by
  obtain ⟨pathLen, tokens, rest⟩ := Exec.bind_eq_ok.mp runs
  cases split : components s.path with
  | nil =>
      have skips := skip_of_components_nil split
      have empty : pathLen = 0 := by
        rw [skips] at tokens
        exact getPathTokenLen_eq (.of_length (by simp) (by simp)) tokens
      rw [if_pos empty] at rest
      cases rest
      refine .step fuel ?_ .refl
      simp only [threadStep, walkStep, tokens, Exec.ok_bind, if_pos empty]
      rfl
  | cons name others =>
      obtain ⟨q, skips, kept, named, rfl, later, after⟩ := components_split fits split
      rw [skips] at tokens rest
      obtain rfl := getPathTokenLen_eq kept tokens
      have nonempty : (token q).length ≠ 0 := by
        simpa using named
      rw [if_neg nonempty] at rest
      obtain ⟨⟨isDir, found⟩, searches, follows⟩ := Exec.bind_eq_ok.mp rest
      cases found with
      | none =>
          cases follows
          refine .step fuel ?_ .refl
          simp only [threadStep, walkStep, skips, tokens, Exec.ok_bind, if_neg nonempty, searches]
          rfl
      | some n =>
          obtain ⟨⟨dcEntry, d₁⟩, remembers, goes⟩ := Exec.bind_eq_ok.mp follows
          obtain ⟨_, _, kids', remembers', remembered⟩ := rememberDentry_spec fs base points kept.noNul isDir n
          cases remembers'.symm.trans remembers
          have alone : Alone fs (s.d, .walk s.path s.inodeIdx s.dcEntry) (d₁, nextComponent q n dcEntry) := by
            cases isDir with
            | false =>
                cases remembers
                refine .step fuel ?_ .refl
                simp only [threadStep, walkStep, skips, tokens, Exec.ok_bind, if_neg nonempty, searches]
                rfl
            | true =>
                obtain ⟨⟨d₂, point⟩, allocates, onward⟩ := insert_alone base.shape points.inside remembers
                refine .step fuel ?_ onward
                simp only [threadStep, walkStep, skips, tokens, Exec.ok_bind, if_neg nonempty, searches]
                exact allocates
          unfold nextComponent at alone
          rcases strchr_slash q with more | ⟨last, _⟩
          · rw [more] at alone goes
            cases goes
            exact ⟨alone, after, kids', _, remembered.base, remembered.points⟩
          · rw [last] at alone goes
            cases goes
            exact alone

theorem walk_alone {kids : Nat → List Nat} {s : PathWalk} {anchor outer fuel n : Nat} (base : CacheBase s.d kids)
    (points : Points s.d s.dcEntry anchor) (fits : PathFits s.path)
    (runs : Exec.loop (componentPass fs outer) fuel s = .ok (n, d')) :
    Alone fs (s.d, .walk s.path s.inodeIdx s.dcEntry) (d', .done n) := by
  induction fuel generalizing s kids anchor with
  | zero => cases runs
  | succ fuel ih =>
      obtain ⟨pass, here, later⟩ := Exec.bind_eq_ok.mp runs
      have moved := pass_alone base points fits here
      cases pass with
      | again next =>
          obtain ⟨alone, fits', kids', anchor', base', points'⟩ := moved
          exact alone.trans (ih base' points' fits' later)
      | done result =>
          cases later
          exact moved

/-- A lookup that no other thread interrupts goes, step by step, where `inode_get_idx_by_path` goes. -/
theorem thread_alone (valid : ∃ kids, CacheValid fs d kids) (fits : PathFits path) {n : Nat}
    (returns : Exec.Returns (inodeGetIdxByPath fs d path) (n, d')) :
    Relation.ReflTransGen (Moves fs) (d, (callThread path).point) (d', .done n) := by
  obtain ⟨kids, valid⟩ := valid
  have root : Points d none rootInodeN := valid.root
  obtain ⟨fuel, runs⟩ := returns
  obtain ⟨_, _, rest⟩ := Exec.bind_eq_ok.mp runs
  obtain ⟨w, cached, rest⟩ := Exec.bind_eq_ok.mp rest
  obtain ⟨inodeIdx, gets, walks⟩ := Exec.bind_eq_ok.mp rest
  obtain ⟨w', returns', followed⟩ := cached_returns valid fits root
  obtain rfl := Exec.Returns.unique (getCachedInodeNum_growing d path) ⟨fuel, cached⟩ returns'
  obtain ⟨kids', valid'⟩ := followed.valid
  obtain ⟨_, last, _, _, points⟩ := followed.steps
  have begins : threadStep fs w.d (.getInode w.path w.next) 0 = .ok (w.d, .walk w.path inodeIdx w.next) := by
    simp only [threadStep, gets, Exec.ok_bind]
    rfl
  refine (cached_alone cached).trans (Alone.step 0 begins ?_)
  exact walk_alone (s := ⟨w.path, inodeIdx, w.next, w.d⟩) valid'.toCacheBase points followed.fits walks

end

/-- The cache after `/a` and `/c`. -/
def rootPair : Dcache := ⟨[⟨some 2, none, 2, []⟩, ⟨none, some 2, 14, nameA⟩, ⟨none, some 1, 13, nameC⟩]⟩

theorem rootPair_valid : ∃ kids, CacheValid mountFs rootPair kids := by
  have a : components [slash, 0x61] = [nameA] := by
    rw [components_cons (by rfl), components_nil (by rfl)]
    rfl
  have c : components [slash, 0x63] = [nameC] := by
    rw [components_cons (by rfl), components_nil (by rfl)]
    rfl
  obtain ⟨d, first, valid⟩ := mountTree_stored.reaches ⟨_, inodeInit_valid mountFs⟩
    (rootName_kernel (.of_length (by decide) (by decide)) a)
  have one : inodeGetIdxByPath mountFs inodeInit [slash, 0x61] 10 = .ok (14, cacheOf 14 nameA) := by decide +kernel
  obtain rfl : d = _ := congrArg Prod.snd (Exec.Returns.unique (inodeGetIdxByPath_growing ..) first ⟨10, one⟩)
  obtain ⟨d, second, valid⟩ := mountTree_stored.reaches valid
    (rootName_kernel (.of_length (by decide) (by decide)) c)
  have two : inodeGetIdxByPath mountFs (cacheOf 14 nameA) [slash, 0x63] 10 = .ok (13, rootPair) := by decide +kernel
  obtain rfl : d = _ := congrArg Prod.snd (Exec.Returns.unique (inodeGetIdxByPath_growing ..) second ⟨10, two⟩)
  exact valid

-- `/b/a` goes by both siblings of the root, and hangs `b` behind them and `a` under it.
theorem thread_alone_b : Relation.ReflTransGen (Moves mountFs)
    (rootPair, (callThread [slash, 0x62, slash, 0x61]).point)
    (⟨[⟨some 3, none, 2, []⟩, ⟨none, some 2, 14, nameA⟩, ⟨none, some 3, 13, nameC⟩, ⟨some 4, some 1, 12, nameB⟩,
      ⟨none, some 4, 14, nameA⟩]⟩, .done 14) :=
  thread_alone rootPair_valid (.of_length (by decide) (by decide)) ⟨20, by decide +kernel⟩

end SampleFs.Proof.Fuse

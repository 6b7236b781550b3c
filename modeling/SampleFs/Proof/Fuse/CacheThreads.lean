import SampleFs.Fuse.DcacheThreads
import SampleFs.Proof.Fuse.CacheOwned
import SampleFs.Proof.Fuse.Session

namespace SampleFs.Proof.Fuse
open Lib SampleFs.Fuse

/-! ## What a thread knows -/

/-- Every directory on the way can be searched, and nothing false is cached on the way. -/
structure Walkable (fs : Fs) (path : List UInt8) : Prop where
  fits : PathFits path
  searched : ∀ names name rest last, components path = names ++ name :: rest →
    Steps fs rootInodeN names last → ∃ found, Finds fs last name found
  sound : ∀ names rest last, components path = names ++ rest → Steps fs rootInodeN names last →
    Sound fs last last rest

/-- The components before `path` have led to `dir`. -/
structure Led (fs : Fs) (arg path : List UInt8) (dir : Nat) : Prop where
  fits : PathFits path
  steps : ∃ names, components arg = names ++ components path ∧ Steps fs rootInodeN names dir

section
variable (d : Dcache) (own : List Nat) (a : Nat)

def IsMember (pointer : Option Nat) : Prop := ∃ k, pointer = some k ∧ Member d own a k

def KnowsLookup (name : List UInt8) : LookupPoint → Prop
  | .test => True
  | .first => (childOf d a).isSome
  | .compare iter => IsMember d own a iter
  | .found iter => ∃ k n, iter = some k ∧ Member d own a k ∧ label d k = some (n, name)
  | .next iter => IsMember d own a iter
  | .until iter => IsMember d own a iter

def KnowsInsert (fresh : Nat) : InsertPoint → Prop
  | .test => True
  | .alone => True
  | .head => (childOf d a).isSome
  | .tail first => (childOf d a).isSome ∧ IsMember d own a first
  | .link siblings => (childOf d a).isSome ∧ IsMember d own a siblings
  | .again => (childOf d a).isSome ∧ Member d own a fresh
  | .hook first => IsMember d own a first ∧ Member d own a fresh
  | .publish => Member d own a fresh

end

/-- An entry that is being added: its name was found, and the walk goes on below it. -/
structure Adding (fs : Fs) (d : Dcache) (own : List Nat) (arg path : List UInt8) (n parent fresh : Nat) : Prop where
  owner : own[fresh]? = some parent
  inner : fresh ≠ 0
  points : Points d (some fresh) n
  led : Led fs arg (afterToken path) n
  sound : Sound fs n n (components (afterToken path))

def KnowsPoint (fs : Fs) (d : Dcache) (own : List Nat) (arg : List UInt8) : ThreadPoint → Prop
  | .cached path ret => ∃ dir, Points d ret dir ∧ Led fs arg path dir
  | .lookup path pathLen ret point => (∃ dir, Points d ret dir ∧ Led fs arg path dir) ∧ token path ≠ [] ∧
      pathLen = (token path).length ∧ KnowsLookup d own (ret.getD 0) (token path) point
  | .getInode path ret => ∃ dir, Points d ret dir ∧ Led fs arg path dir
  | .walk path inodeIdx dcEntry => Led fs arg path inodeIdx ∧
      ∃ anchor, Points d dcEntry anchor ∧ Sound fs anchor inodeIdx (components path)
  | .insert path n parent fresh point => Adding fs d own arg path n parent fresh ∧ KnowsInsert d own parent fresh point
  | .done n => Walks fs rootInodeN (components arg) n

def Knows (fs : Fs) (d : Dcache) (own : List Nat) (t : Thread) : Prop :=
  Walkable fs t.arg ∧ KnowsPoint fs d own t.arg t.point

section
variable {fs : Fs} {d d' : Dcache} {own own' : List Nat} {a : Nat} {arg path : List UInt8}

theorem IsMember.grows {pointer : Option Nat} (known : IsMember d own a pointer) (grows : Grows d own d' own') :
    IsMember d' own' a pointer := by
  obtain ⟨k, rfl, member⟩ := known
  exact ⟨k, rfl, member.grows grows⟩

theorem KnowsLookup.grows {name : List UInt8} {point : LookupPoint} (known : KnowsLookup d own a name point)
    (grows : Grows d own d' own') : KnowsLookup d' own' a name point := by
  cases point with
  | test => trivial
  | first => exact grows.childs a known
  | compare iter => exact IsMember.grows known grows
  | found iter =>
      obtain ⟨k, n, rfl, member, named⟩ := known
      exact ⟨k, n, rfl, member.grows grows, grows.labels _ _ named⟩
  | next iter => exact IsMember.grows known grows
  | «until» iter => exact IsMember.grows known grows

theorem KnowsInsert.grows {fresh : Nat} {point : InsertPoint} (known : KnowsInsert d own a fresh point)
    (grows : Grows d own d' own') : KnowsInsert d' own' a fresh point := by
  cases point with
  | test => trivial
  | alone => trivial
  | head => exact grows.childs a known
  | tail first => exact ⟨grows.childs a known.1, known.2.grows grows⟩
  | link siblings => exact ⟨grows.childs a known.1, known.2.grows grows⟩
  | again => exact ⟨grows.childs a known.1, known.2.grows grows⟩
  | hook first => exact ⟨known.1.grows grows, known.2.grows grows⟩
  | publish => exact Member.grows known grows

theorem Adding.grows {n parent fresh : Nat} (adding : Adding fs d own arg path n parent fresh)
    (grows : Grows d own d' own') : Adding fs d' own' arg path n parent fresh :=
  ⟨grows.owners _ _ adding.owner, adding.inner, adding.points.grows grows, adding.led, adding.sound⟩

theorem KnowsPoint.grows {point : ThreadPoint} (known : KnowsPoint fs d own arg point) (grows : Grows d own d' own') :
    KnowsPoint fs d' own' arg point := by
  cases point with
  | cached path ret =>
      obtain ⟨dir, points, led⟩ := known
      exact ⟨dir, points.grows grows, led⟩
  | lookup path pathLen ret point =>
      obtain ⟨⟨dir, points, led⟩, named, same, inner⟩ := known
      exact ⟨⟨dir, points.grows grows, led⟩, named, same, inner.grows grows⟩
  | getInode path ret =>
      obtain ⟨dir, points, led⟩ := known
      exact ⟨dir, points.grows grows, led⟩
  | walk path inodeIdx dcEntry =>
      obtain ⟨led, anchor, points, sound⟩ := known
      exact ⟨led, anchor, points.grows grows, sound⟩
  | insert path n parent fresh point => exact ⟨known.1.grows grows, known.2.grows grows⟩
  | done n => exact known

/-! ## A step of a lookup -/

def LookupLeaves (fs : Fs) (d : Dcache) (own : List Nat) (a dir : Nat) (name : List UInt8) :
    Pass LookupPoint (Option Nat) → Prop
  | .again point => KnowsLookup d own a name point
  | .done none => True
  | .done (some k) => ∃ n, Points d (some k) n ∧ Resolves fs dir name n

theorem CacheOwned.childs_member (owned : CacheOwned fs d own) {above : DcacheEntry}
    (stored : d.entries[a]? = some above) (some : (childOf d a).isSome) : IsMember d own a above.childs := by
  rw [childOf_stored stored] at some
  obtain ⟨k, held⟩ := Option.isSome_iff_exists.mp some
  exact ⟨k, held, owned.childs a k (by rw [childOf_stored stored]; exact held)⟩

theorem CacheOwned.sibling_member (owned : CacheOwned fs d own) {k : Nat} (member : Member d own a k) :
    ∃ entry, d.entries[k]? = some entry ∧ IsMember d own a entry.siblings := by
  obtain ⟨entry, s, stored, held⟩ := member.stored
  obtain ⟨b, owner, onward⟩ := owned.siblings k s (by rw [siblingOf_stored stored]; exact held)
  rw [member.owner] at owner
  cases owner
  exact ⟨entry, stored, s, held, onward⟩

theorem dcacheLookupStep_spec (owned : CacheOwned fs d own) {ret : Option Nat} {dir : Nat} (points : Points d ret dir)
    {point : LookupPoint} (known : KnowsLookup d own (ret.getD 0) (token path) point) :
    ∃ d' pass, dcacheLookupStep (ret.getD 0) path (token path).length d point = .ok (d', pass) ∧
      CacheOwned fs d' own ∧ Grows d own d' own ∧ LookupLeaves fs d' own (ret.getD 0) dir (token path) pass := by
  obtain ⟨above, stored, inode⟩ := points.stored
  have same := Grows.refl d own
  have loads := load_eq stored
  cases point with
  | test =>
      refine ⟨d, _, by rw [dcacheLookupStep, loads]; rfl, owned, same, ?_⟩
      by_cases empty : above.childs = none
      · rw [if_pos empty]
        trivial
      · rw [if_neg empty]
        show (childOf d (ret.getD 0)).isSome
        rw [childOf_stored stored]
        exact Option.isSome_iff_ne_none.mpr empty
  | first =>
      refine ⟨d, _, by rw [dcacheLookupStep, loads]; rfl, owned, same, ?_⟩
      exact owned.childs_member stored known
  | compare iter =>
      obtain ⟨k, rfl, member⟩ := known
      obtain ⟨entry, held, _⟩ := owned.sibling_member member
      refine ⟨d, _, by rw [dcacheLookupStep, load_eq held]; rfl, owned, same, ?_⟩
      by_cases hit : nameMatches entry path (token path).length
      · rw [if_pos hit]
        obtain ⟨name, here⟩ := points
        have labelled : label d k = some (entry.inode, entry.name) := by
          rw [label, held]
          rfl
        have noNul := (owned.truth k _ dir name _ _ member.owner member.inner here labelled).1
        rw [nameMatches_token noNul hit] at labelled
        exact ⟨k, entry.inode, rfl, member, labelled⟩
      · rw [if_neg hit]
        exact ⟨k, rfl, member⟩
  | found iter =>
      obtain ⟨k, n, rfl, member, named⟩ := known
      obtain ⟨owned', grows⟩ := owned.setChilds stored member
      refine ⟨_, .done (some k), by rw [dcacheLookupStep, loads]; rfl, owned', grows, n, ⟨_, grows.labels _ _ named⟩, ?_⟩
      obtain ⟨name, here⟩ := points
      exact (owned.truth k _ dir name n _ member.owner member.inner here named).2
  | next iter =>
      obtain ⟨k, rfl, member⟩ := known
      obtain ⟨entry, held, onward⟩ := owned.sibling_member member
      exact ⟨d, .again (.until entry.siblings), by rw [dcacheLookupStep, load_eq held]; rfl, owned, same, onward⟩
  | «until» iter =>
      refine ⟨d, _, by rw [dcacheLookupStep, loads]; rfl, owned, same, ?_⟩
      by_cases more : iter ≠ above.childs
      · rw [if_pos more]
        exact known
      · rw [if_neg more]
        trivial

/-! ## A step of an insertion -/

def InsertLeaves (d : Dcache) (own : List Nat) (a fresh : Nat) : Pass InsertPoint Unit → Prop
  | .again point => KnowsInsert d own a fresh point
  | .done _ => True

theorem dcacheInsertStep_spec (owned : CacheOwned fs d own) {fresh : Nat} (owner : own[fresh]? = some a)
    (inner : fresh ≠ 0) {point : InsertPoint} (known : KnowsInsert d own a fresh point) :
    ∃ d' pass, dcacheInsertStep a fresh d point = .ok (d', pass) ∧ CacheOwned fs d' own ∧ Grows d own d' own ∧
      InsertLeaves d' own a fresh pass := by
  obtain ⟨above, stored⟩ : ∃ above, d.entries[a]? = some above := ⟨_, List.getElem?_eq_getElem (owned.inside fresh a owner)⟩
  have young : fresh < d.entries.length := by
    rw [← owned.size]
    exact (List.getElem?_eq_some_iff.mp owner).1
  obtain ⟨entry, held⟩ : ∃ entry, d.entries[fresh]? = some entry := ⟨_, List.getElem?_eq_getElem young⟩
  have same := Grows.refl d own
  have loads := load_eq stored
  cases point with
  | test =>
      refine ⟨d, _, by rw [dcacheInsertStep, loads]; rfl, owned, same, ?_⟩
      by_cases empty : above.childs = none
      · rw [if_pos empty]
        trivial
      · rw [if_neg empty]
        show (childOf d a).isSome
        rw [childOf_stored stored]
        exact Option.isSome_iff_ne_none.mpr empty
  | alone =>
      obtain ⟨owned', grows, member⟩ := owned.setSiblings held owner inner (.inl rfl)
      exact ⟨_, .again .publish, by rw [dcacheInsertStep, load_eq held]; rfl, owned', grows, member⟩
  | head =>
      exact ⟨d, .again (.tail above.childs), by rw [dcacheInsertStep, loads]; rfl, owned, same, known,
        owned.childs_member stored known⟩
  | tail first =>
      obtain ⟨some, k, rfl, member⟩ := known
      obtain ⟨entry', held', onward⟩ := owned.sibling_member member
      exact ⟨d, .again (.link entry'.siblings), by rw [dcacheInsertStep, load_eq held']; rfl, owned, same, some, onward⟩
  | link siblings =>
      obtain ⟨some, k, rfl, member⟩ := known
      obtain ⟨owned', grows, linked⟩ := owned.setSiblings held owner inner (.inr member)
      exact ⟨_, .again .again, by rw [dcacheInsertStep, load_eq held]; rfl, owned', grows, grows.childs a some, linked⟩
  | again =>
      obtain ⟨some, linked⟩ := known
      exact ⟨d, .again (.hook above.childs), by rw [dcacheInsertStep, loads]; rfl, owned, same,
        owned.childs_member stored some, linked⟩
  | hook first =>
      obtain ⟨⟨k, rfl, member⟩, linked⟩ := known
      obtain ⟨entry', s, held', _⟩ := member.stored
      obtain ⟨owned', grows, _⟩ := owned.setSiblings held' member.owner member.inner (.inr linked)
      exact ⟨_, .again .publish, by rw [dcacheInsertStep, load_eq held']; rfl, owned', grows, linked.grows grows⟩
  | publish =>
      obtain ⟨owned', grows⟩ := owned.setChilds stored known
      exact ⟨_, .done (), by rw [dcacheInsertStep, loads]; rfl, owned', grows, trivial⟩

/-! ## A step of a thread -/

theorem Steps.snoc {dir last n : Nat} {names : List (List UInt8)} {name : List UInt8} (steps : Steps fs dir names last)
    (resolves : Resolves fs last name n) : Steps fs dir (names ++ [name]) n := by
  induction names generalizing dir with
  | nil =>
      rw [show last = dir from steps] at resolves
      exact ⟨n, resolves, rfl⟩
  | cons first rest ih =>
      obtain ⟨k, here, onward⟩ := steps
      exact ⟨k, here, ih onward⟩

theorem Led.skipOne {dir : Nat} (led : Led fs arg path dir) : Led fs arg (skipOne path) dir := by
  refine ⟨led.fits.skipOne, ?_⟩
  rw [components_skipOne]
  exact led.steps

theorem Led.next {dir n : Nat} (led : Led fs arg path dir) (named : token path ≠ []) (resolves : Resolves fs dir (token path) n) :
    Led fs arg (afterToken path) n := by
  obtain ⟨names, split, steps⟩ := led.steps
  refine ⟨led.fits.afterToken named, names ++ [token path], ?_, steps.snoc resolves⟩
  rw [split, components_token named, List.append_assoc]
  rfl

theorem Led.walks {dir result : Nat} (led : Led fs arg path dir) (rest : Walks fs dir (components path) result) :
    Walks fs rootInodeN (components arg) result := by
  obtain ⟨names, split, steps⟩ := led.steps
  rw [split]
  exact (Walks.through steps).mpr rest

/-- A step gives an answer or takes longer, and an answer leaves the cache and the thread in order. -/
def Fine (fs : Fs) (d : Dcache) (own : List Nat) (arg : List UInt8) (x : Exec Fault (Dcache × ThreadPoint)) : Prop :=
  x = .timeout ∨ ∃ d' point own', x = .ok (d', point) ∧ CacheOwned fs d' own' ∧ Grows d own d' own' ∧
    KnowsPoint fs d' own' arg point

theorem Fine.same {point : ThreadPoint} (owned : CacheOwned fs d own) (known : KnowsPoint fs d own arg point) :
    Fine fs d own arg (.ok (d, point)) := .inr ⟨d, point, own, rfl, owned, .refl d own, known⟩

theorem Fine.bind {α : Type} {f : Nat → Exec Fault α} (growing : Exec.Growing f) {value : α} (returns : Exec.Returns f value)
    (fuel : Nat) {next : α → Exec Fault (Dcache × ThreadPoint)} (fine : Fine fs d own arg (next value)) :
    Fine fs d own arg (f fuel >>= next) := by
  rcases returns.early growing fuel with late | now
  · rw [late]
    exact .inl rfl
  · rw [now]
    exact fine

theorem nextComponent_known {n anchor : Nat} {dcEntry : Option Nat} (led : Led fs arg (afterToken path) n)
    (points : Points d dcEntry anchor) (sound : Sound fs anchor n (components (afterToken path))) :
    KnowsPoint fs d own arg (nextComponent path n dcEntry) := by
  unfold nextComponent
  rcases strchr_slash path with later | ⟨last, empty⟩
  · rw [later]
    exact ⟨led, anchor, points, sound⟩
  · rw [last]
    refine led.walks ?_
    rw [empty, components_nil (by rfl)]
    rfl

theorem CacheOwned.root_points (owned : CacheOwned fs d own) : Points d none rootInodeN := owned.root

theorem insertAlloc_fine (owned : CacheOwned fs d own) {dir n anchor : Nat} {dcEntry : Option Nat} (led : Led fs arg path dir)
    (named : token path ≠ []) (points : Points d dcEntry anchor) (found : Finds fs dir (token path) (true, some n))
    (hung : Added true (token path) → Resolves fs anchor (token path) n)
    (onward : Sound fs (nextAnchor anchor n true (token path)) n (components (afterToken path))) :
    Fine fs d own arg (dcacheInsertAlloc d dcEntry path (token path).length n) := by
  have resolves : Resolves fs dir (token path) n := ⟨true, found⟩
  unfold dcacheInsertAlloc
  by_cases long : (token path).length + 1 > dcacheEntryNameLen
  · rw [if_pos long]
    rw [nextAnchor, if_pos rfl, if_pos long] at onward
    exact .same owned (nextComponent_known (led.next named resolves) owned.root_points onward)
  · rw [nextAnchor, if_pos rfl, if_neg long] at onward
    obtain ⟨above, stored, inode⟩ := points.stored
    have rooted : dcEntry ≠ none ∨ above.inode ≠ 0 := by
      cases dcEntry with
      | some k => exact .inl (by simp)
      | none =>
          refine .inr ?_
          obtain ⟨root, labelled⟩ := owned.root
          obtain ⟨other, same, number, _⟩ := label_eq_some labelled
          rw [show d.entries[0]? = some above from stored] at same
          cases same
          rw [number]
          decide
    rw [if_neg long, load_eq stored, Exec.ok_bind, Exec.check_pos _ rooted, Exec.ok_bind, take_length_token]
    obtain ⟨name, parent⟩ := points
    have noNul : 0 ∉ token path := fun member => led.fits.noNul ((List.takeWhile_sublist _).subset member)
    obtain ⟨owned', grows⟩ := owned.alloc parent noNul (hung ⟨rfl, by omega⟩)
    have some : 0 < d.entries.length := Nat.lt_of_le_of_lt (Nat.zero_le _) (List.getElem?_eq_some_iff.mp stored).1
    refine .inr ⟨_, _, own ++ [dcEntry.getD 0], rfl, owned', grows, ⟨?_, some.ne', ?_, led.next named resolves, onward⟩, trivial⟩
    · rw [← owned.size, List.getElem?_append_right (Nat.le_refl _), Nat.sub_self]
      rfl
    · refine ⟨token path, ?_⟩
      exact congrArg (Option.map fun entry => (entry.inode, entry.name)) (push_new d ⟨none, none, n, token path⟩)

theorem walkStep_fine (owned : CacheOwned fs d own) (walkable : Walkable fs arg) {dir anchor : Nat} {dcEntry : Option Nat}
    (led : Led fs arg path dir) (points : Points d dcEntry anchor) (sound : Sound fs anchor dir (components path))
    (fuel : Nat) : Fine fs d own arg (walkStep fs d path dir dcEntry fuel) := by
  unfold walkStep
  cases split : components path with
  | nil =>
      rw [skip_of_components_nil split]
      have fits : PathFits [] := .of_length (by simp) (by simp)
      refine .bind (getPathTokenLen_growing []) fits.token fuel ?_
      refine .same owned (led.walks ?_)
      rw [split]
      rfl
  | cons name rest =>
      obtain ⟨q, skips, kept, named, rfl, later, after⟩ := components_split led.fits split
      have nonempty : (token q).length ≠ 0 := by
        simpa using named
      obtain ⟨names, whole, steps⟩ := led.steps
      have here : Led fs arg q dir := by
        refine ⟨kept, names, ?_, steps⟩
        rw [whole, split, components_token named, later]
      obtain ⟨⟨isDir, found⟩, finds⟩ := walkable.searched names (token q) rest dir (by rw [whole, split]) steps
      rw [skips]
      refine .bind (getPathTokenLen_growing q) kept.token fuel ?_
      simp only [if_neg nonempty]
      have returns : Exec.Returns (searchDir fs dir q (token q).length) (isDir, found) := by
        simp only [Finds, ← searchDir_token] at finds
        exact finds
      refine .bind (searchDir_growing fs dir q (token q).length) returns fuel ?_
      cases found with
      | none =>
          refine .same owned (led.walks ?_)
          rw [split]
          exact ⟨isDir, none, finds, rfl⟩
      | some n =>
          rw [split] at sound
          obtain ⟨hung, onward⟩ := sound isDir n finds
          rw [← later] at onward
          cases isDir with
          | true => exact insertAlloc_fine owned here named points finds hung onward
          | false =>
              have resolves : Resolves fs dir (token q) n := ⟨false, finds⟩
              exact .same owned (nextComponent_known (here.next named resolves) points onward)

theorem threadStep_fine (owned : CacheOwned fs d own) {t : Thread} (known : Knows fs d own t) (fuel : Nat) :
    Fine fs d own t.arg (threadStep fs d t.point fuel) := by
  obtain ⟨arg, point⟩ := t
  obtain ⟨walkable, known⟩ := known
  cases point with
  | cached path ret =>
      obtain ⟨dir, points, led⟩ := known
      refine .bind (getPathTokenLen_growing (skipOne path)) led.fits.skipOne.token fuel ?_
      refine .same owned ?_
      by_cases empty : (token (skipOne path)).length = 0
      · rw [if_pos empty]
        exact ⟨dir, points, led.skipOne⟩
      · have named : token (skipOne path) ≠ [] := mt List.length_eq_zero_iff.mpr empty
        rw [if_neg empty]
        exact ⟨⟨dir, points, led.skipOne⟩, named, rfl, trivial⟩
  | lookup path pathLen ret point =>
      obtain ⟨⟨dir, points, led⟩, named, rfl, inner⟩ := known
      obtain ⟨d', pass, runs, owned', grows, leaves⟩ := dcacheLookupStep_spec owned points inner
      have points' := points.grows grows
      unfold threadStep
      simp only [runs, Exec.ok_bind]
      cases pass with
      | again next => exact .inr ⟨d', _, own, rfl, owned', grows, ⟨dir, points', led⟩, named, rfl, leaves⟩
      | done found =>
          cases found with
          | none => exact .inr ⟨d', _, own, rfl, owned', grows, dir, points', led⟩
          | some k =>
              obtain ⟨n, onward, resolves⟩ := leaves
              rw [drop_length_token]
              exact .inr ⟨d', _, own, rfl, owned', grows, n, onward, led.next named resolves⟩
  | getInode path ret =>
      obtain ⟨dir, points, led⟩ := known
      unfold threadStep
      simp only [dcacheGetInode_eq.mpr points, Exec.ok_bind]
      obtain ⟨names, split, steps⟩ := led.steps
      exact .same owned ⟨led, dir, points, walkable.sound names _ dir split steps⟩
  | walk path inodeIdx dcEntry =>
      obtain ⟨led, anchor, points, sound⟩ := known
      exact walkStep_fine owned walkable led points sound fuel
  | insert path n parent fresh point =>
      obtain ⟨adding, inner⟩ := known
      obtain ⟨d', pass, runs, owned', grows, leaves⟩ := dcacheInsertStep_spec owned adding.owner adding.inner inner
      have adding' := adding.grows grows
      unfold threadStep
      simp only [runs, Exec.ok_bind]
      cases pass with
      | again next => exact .inr ⟨d', _, own, rfl, owned', grows, adding', leaves⟩
      | done result =>
          exact .inr ⟨d', _, own, rfl, owned', grows, nextComponent_known adding'.led adding'.points adding'.sound⟩
  | done n => exact .same owned known

end

/-! ## Any number of threads in any order -/

theorem cacheThreads_rule (fs : Fs) : RelyGuarantee callThread (threadMoves fs) (Walkable fs) (CacheOwned fs) Grows
    (Knows fs) where
  stable := fun _ _ _ _ _ grows known => ⟨known.1, known.2.grows grows⟩
  starts := by
    intro d own path owned walkable
    exact ⟨walkable, rootInodeN, owned.root_points, walkable.fits, [], rfl, rfl⟩
  steps := by
    intro d own t d' t' owned known moves
    obtain ⟨point, ⟨fuel, runs⟩, rfl⟩ := moves
    rcases threadStep_fine owned known fuel with late | ⟨d₁, point₁, own₁, now, owned₁, grows, after⟩
    · rw [runs] at late
      cases late
    · rw [runs] at now
      cases now
      exact ⟨own₁, owned₁, grows, known.1, after⟩

theorem Stores.walkable {fs : Fs} {bufsize : Nat} {tree : FileTree} (stores : Stores fs bufsize tree) {path : List UInt8}
    (kernel : tree.KernelPath path) : Walkable fs path := by
  have dirs := kernel.dirs
  refine ⟨kernel.fits, ?_, ?_⟩
  · intro names name rest last split steps
    rw [split] at dirs
    obtain ⟨stat, list, listed, _⟩ := stores.through_steps steps dirs
    exact ⟨_, stores.finds listed name⟩
  · intro names rest last split steps
    rw [split] at dirs
    exact stores.sound (stores.through_steps steps dirs)

theorem Walks.unique {fs : Fs} {dir m n : Nat} {names : List (List UInt8)} (left : Walks fs dir names m)
    (right : Walks fs dir names n) : m = n := by
  induction names generalizing dir with
  | nil => rw [show m = dir from left, show n = dir from right]
  | cons name rest ih =>
      obtain ⟨isDir, found, finds, onward⟩ := left
      obtain ⟨isDir', found', finds', onward'⟩ := right
      cases finds.unique finds'
      cases found with
      | none => exact (show m = 0 from onward).trans (show n = 0 from onward').symm
      | some k => exact ih onward onward'

/-- Without a lock, whatever the order of the steps: no thread reads through a bad pointer, and a lookup
that ends has found what the tree holds. -/
theorem cache_threads_safe {fs : Fs} {bufsize : Nat} {tree : FileTree} (stores : Stores fs bufsize tree)
    {history : List (PoolEvent (List UInt8) × Unit)} {final : Pool Dcache Thread}
    (run : Run (guarded (starting tree.KernelPath) (cacheThreads fs)) ⟨inodeInit, []⟩ history final) :
    ∀ t ∈ final.threads, (∀ fuel fault, threadStep fs final.shared t.point fuel ≠ .fail fault) ∧
      ∀ n, t.point = .done n → n = (tree.resolve t.arg).getD 0 := by
  have rule : RelyGuarantee callThread (threadMoves fs) tree.KernelPath (CacheOwned fs) Grows
      (fun d own t => Knows fs d own t ∧ tree.KernelPath t.arg) := by
    refine ⟨?_, ?_, ?_⟩
    · intro d own d' own' t grows known
      exact ⟨(cacheThreads_rule fs).stable d own d' own' t grows known.1, known.2⟩
    · intro d own path owned kernel
      exact ⟨(cacheThreads_rule fs).starts d own path owned (stores.walkable kernel), kernel⟩
    · intro d own t d' t' owned known moves
      obtain ⟨own', owned', grows, after⟩ := (cacheThreads_rule fs).steps d own t d' t' owned known.1 moves
      obtain ⟨point, _, rfl⟩ := moves
      exact ⟨own', owned', grows, after, known.2⟩
  obtain ⟨own, owned, all⟩ := rule.run (CacheOwned.init fs) run
  intro t member
  obtain ⟨known, kernel⟩ := all t member
  refine ⟨?_, ?_⟩
  · intro fuel fault fails
    rcases threadStep_fine owned known fuel with late | ⟨_, _, _, now, _⟩
    · rw [fails] at late
      cases late
    · rw [fails] at now
      cases now
  · intro n ends
    have walks := known.2
    rw [ends] at walks
    exact Walks.unique walks (stores.walks kernel.dirs)

def threadMove (fs : Fs) (fuel : Nat) (d : Dcache) (t : Thread) : Option (Dcache × Thread) :=
  match threadStep fs d t.point fuel with
  | .ok (d', point) => some (d', { t with point })
  | _ => none

theorem threadMove_moves {fs : Fs} {fuel : Nat} {d d' : Dcache} {t t' : Thread}
    (moved : threadMove fs fuel d t = some (d', t')) : threadMoves fs d t d' t' := by
  unfold threadMove at moved
  split at moved
  next d₁ point runs =>
    cases moved
    exact ⟨point, ⟨fuel, runs⟩, rfl⟩
  next => cases moved

def pathA : List UInt8 := [slash, 0x61]
def pathB : List UInt8 := [slash, 0x62]

-- Both threads find the root without children, and both add one.
def bothFirst : List Nat := [0, 0, 0, 1, 1, 1, 0, 1, 0, 1, 0, 1, 0, 1]

theorem kernelPath_single {name : UInt8} (other : name ≠ slash) (some : name ≠ 0) :
    mountTree.KernelPath [slash, name] := by
  have split : components [slash, name] = [[name]] := by
    rw [components_slash, components_token (by simp [token, other]), components_nil]
    · simp [token, other]
    · simp [afterToken, skipTrailingBackslash, other]
  refine ⟨rfl, .of_length ?_ (by simp), ?_⟩
  · simp [some.symm, slash]
  · rw [split]
    exact ⟨_, _, rfl, fun _ _ => trivial⟩

theorem cache_threads_safe_both : ∃ d, ∀ t ∈ [Thread.mk pathA (.done 14), Thread.mk pathB (.done 12)],
    (∀ fuel fault, threadStep mountFs d t.point fuel ≠ .fail fault) ∧
      ∀ n, t.point = .done n → n = (mountTree.resolve t.arg).getD 0 := by
  obtain ⟨d, steps⟩ : ∃ d, stepAll (threadMove mountFs 20) ⟨inodeInit, [callThread pathA, callThread pathB]⟩ bothFirst =
      some ⟨d, [⟨pathA, .done 14⟩, ⟨pathB, .done 12⟩]⟩ :=
    ⟨⟨[⟨some 2, none, 2, []⟩, ⟨none, some 1, 14, nameA⟩, ⟨none, some 2, 12, nameB⟩]⟩, by decide +kernel⟩
  have run : Run (guarded (starting mountTree.KernelPath) (cacheThreads mountFs)) ⟨inodeInit, []⟩
      ((.start pathA, ()) :: (.start pathB, ()) :: bothFirst.map fun i => (.step i, ())) ⟨d, _⟩ :=
    .cons ⟨kernelPath_single (by decide) (by decide), rfl⟩ (.cons ⟨kernelPath_single (by decide) (by decide), rfl⟩
      (stepAll_run (fun _ _ _ _ => threadMove_moves) steps))
  exact ⟨d, cache_threads_safe mountTree_stored run⟩

end SampleFs.Proof.Fuse

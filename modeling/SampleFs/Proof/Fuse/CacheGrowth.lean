import SampleFs.Proof.Fuse.Session

/-!
# What the directory cache holds

Nothing is ever taken out of the cache. It grows by one entry for each path that is found for the first
time, and what is in it is found again without the disk.
-/

namespace SampleFs.Proof.Fuse
open Lib SampleFs.Fuse

def Short (names : List (List UInt8)) : Prop := ∀ name ∈ names, name.length < dcacheEntryNameLen

/-- A path as the kernel builds it. Behind a second slash the cache is not asked. -/
def SingleSlashes (path : List UInt8) : Prop := ¬ [slash, slash] <:+: path

instance (path : List UInt8) : Decidable (SingleSlashes path) := inferInstanceAs (Decidable (¬ _))

theorem SingleSlashes.suffix {path rest : List UInt8} (single : SingleSlashes path) (ends : rest <:+ path) :
    SingleSlashes rest :=
  fun double => single (double.trans ends.isInfix)

theorem skipOne_suffix (path : List UInt8) : skipOne path <:+ path := by
  unfold skipOne
  split
  · exact List.drop_suffix 1 path
  · exact List.suffix_rfl

theorem components_behind {path : List UInt8} (single : SingleSlashes path) (empty : token (skipOne path) = []) :
    components path = [] := by
  cases path with
  | nil => exact components_nil rfl
  | cons c rest =>
      by_cases starts : c = slash
      · subst starts
        rw [components_slash]
        have behind : skipOne (slash :: rest) = rest := rfl
        rw [behind] at empty
        cases rest with
        | nil => exact components_nil rfl
        | cons c' more =>
            have again : c' = slash := by
              by_contra other
              rw [token, List.takeWhile_cons_of_pos (by simpa using other)] at empty
              cases empty
            subst again
            exact absurd ⟨[], more, rfl⟩ single
      · have whole : skipOne (c :: rest) = c :: rest := if_neg starts
        rw [whole, token, List.takeWhile_cons_of_pos (by simpa using starts)] at empty
        cases empty

/-- Each entry has a path of its own, hangs under the path without the last name, and has the inode of its path.
The paths are listed by address. -/
structure CacheIs (tree : FileTree) (d : Dcache) (kids : Nat → List Nat) (paths : List (List (List UInt8))) :
    Prop extends CacheBase d kids where
  size : paths.length = d.entries.length
  distinct : paths.Nodup
  first : paths[0]? = some []
  above : ∀ p name, p ++ [name] ∈ paths → p ∈ paths
  hung : ∀ a k, k ∈ kids a ↔ ∃ p name, paths[a]? = some p ∧ paths[k]? = some (p ++ [name])
  holds : ∀ k p name, paths[k]? = some (p ++ [name]) → 0 ∉ name ∧ name.length < dcacheEntryNameLen ∧
    ∃ n, tree.lookup rootInodeN (p ++ [name]) = some n ∧ label d k = some (n, name)

namespace FileTree
variable {tree : FileTree}

theorem lookup_append (dir : Nat) (names rest : List (List UInt8)) :
    tree.lookup dir (names ++ rest) = (tree.lookup dir names).bind fun n => tree.lookup n rest := by
  induction names generalizing dir with
  | nil => rfl
  | cons name names ih =>
      rw [List.cons_append, lookup, lookup]
      split
      next =>
        split
        next n _ => exact ih n
        next => rfl
      next => rfl

theorem lookup_child {dir n : Nat} {stat : Stat} {list : List Item} {name : List UInt8}
    (listed : tree dir = some ⟨stat, .directory list⟩) (found : child list name = some n)
    (rest : List (List UInt8)) : tree.lookup dir (name :: rest) = tree.lookup n rest := by
  simp only [lookup, listed, found]

theorem lookup_missing {dir : Nat} {stat : Stat} {list : List Item} {name : List UInt8}
    (listed : tree dir = some ⟨stat, .directory list⟩) (found : child list name = none)
    (rest : List (List UInt8)) : tree.lookup dir (name :: rest) = none := by
  simp only [lookup, listed, found]

end FileTree

theorem getElem?_snoc {α : Type} {list : List α} {x y : α} {k : Nat} :
    (list ++ [x])[k]? = some y ↔ list[k]? = some y ∨ k = list.length ∧ y = x := by
  rw [List.getElem?_append]
  split
  next less =>
    constructor
    · exact .inl
    · rintro (old | ⟨rfl, _⟩)
      · exact old
      · exact absurd less (Nat.lt_irrefl _)
  next beyond =>
    rw [List.getElem?_eq_none (Nat.le_of_not_lt beyond), List.getElem?_singleton]
    constructor
    · intro found
      split at found
      next here => exact .inr ⟨by omega, (Option.some.inj found).symm⟩
      next => cases found
    · rintro (old | ⟨rfl, rfl⟩)
      · cases old
      · simp

namespace CacheIs
variable {tree : FileTree} {d d' : Dcache} {kids kids' : Nat → List Nat} {paths : List (List (List UInt8))}

theorem init (tree : FileTree) : CacheIs tree inodeInit (fun _ => []) [[]] := by
  refine ⟨⟨Shape.init rootInodeN, [], rfl⟩, rfl, List.nodup_singleton _, rfl, ?_, ?_, ?_⟩
  · intro p name member
    simp at member
  · intro a k
    constructor
    · intro member
      cases member
    · rintro ⟨p, name, _, here⟩
      simp [List.getElem?_singleton] at here
  · intro k p name here
    simp [List.getElem?_singleton] at here

theorem unique (is : CacheIs tree d kids paths) {a b : Nat} {p : List (List UInt8)} (left : paths[a]? = some p)
    (right : paths[b]? = some p) : a = b :=
  (List.getElem?_inj (List.getElem?_eq_some_iff.mp left).1 is.distinct).mp (left.trans right.symm)

theorem points (is : CacheIs tree d kids paths) {entry : Option Nat} {p : List (List UInt8)}
    (here : paths[entry.getD 0]? = some p) : ∃ n, tree.lookup rootInodeN p = some n ∧ Points d entry n := by
  rcases List.eq_nil_or_concat p with rfl | ⟨q, name, rfl⟩
  · refine ⟨rootInodeN, rfl, ?_⟩
    rw [Points, is.unique here is.first]
    exact is.root
  · rw [List.concat_eq_append] at here ⊢
    obtain ⟨_, _, n, reached, labelled⟩ := is.holds _ _ _ here
    exact ⟨n, reached, name, labelled⟩

theorem of_prefix (is : CacheIs tree d kids paths) {p q : List (List UInt8)} (member : p ++ q ∈ paths) : p ∈ paths := by
  induction q using List.reverseRecOn with
  | nil => rwa [List.append_nil] at member
  | append_singleton q name ih =>
      rw [← List.append_assoc] at member
      exact ih (is.above _ _ member)

theorem kept (is : CacheIs tree d kids paths) {p : List (List UInt8)} (member : p ∈ paths) :
    (tree.lookup rootInodeN p).isSome ∧ Short p := by
  induction p using List.reverseRecOn with
  | nil => exact ⟨rfl, by simp [Short]⟩
  | append_singleton p name ih =>
      obtain ⟨k, here⟩ := List.getElem?_of_mem member
      obtain ⟨_, short, n, reached, _⟩ := is.holds k p name here
      refine ⟨by rw [reached]; rfl, ?_⟩
      exact List.forall_mem_append.mpr ⟨(ih (is.above p name member)).2, List.forall_mem_singleton.mpr short⟩

/-! ## Lookup -/

theorem turned (is : CacheIs tree d kids paths) (shape : Shape d' kids') (labels : label d' = label d)
    (same : d'.entries.length = d.entries.length) (members : ∀ a k, k ∈ kids' a ↔ k ∈ kids a) :
    CacheIs tree d' kids' paths := by
  refine ⟨⟨shape, by rw [labels]; exact is.root⟩, is.size.trans same.symm, is.distinct, is.first, is.above, ?_, ?_⟩
  · intro a k
    rw [members, is.hung]
  · rw [labels]
    exact is.holds

theorem found (is : CacheIs tree d kids paths) {a k : Nat} {p : List (List UInt8)} {path : List UInt8}
    (here : paths[a]? = some p) (finds : firstNamed d (kids a) path (token path).length = some k) :
    paths[k]? = some (p ++ [token path]) := by
  obtain ⟨member, entry, stored, hit⟩ := firstNamed_some finds
  obtain ⟨q, name, parent, below⟩ := (is.hung a k).mp member
  rw [here] at parent
  cases parent
  obtain ⟨noNul, _, n, _, labelled⟩ := is.holds k p name below
  obtain ⟨entry', stored', _, rfl⟩ := label_eq_some labelled
  rw [stored] at stored'
  cases stored'
  rwa [nameMatches_token noNul hit] at below

theorem missed (is : CacheIs tree d kids paths) {a : Nat} {p : List (List UInt8)} {path : List UInt8}
    (here : paths[a]? = some p) (finds : firstNamed d (kids a) path (token path).length = none) :
    p ++ [token path] ∉ paths := by
  intro member
  obtain ⟨k, below⟩ := List.getElem?_of_mem member
  obtain ⟨noNul, _, n, _, labelled⟩ := is.holds k p _ below
  obtain ⟨entry, stored, _, named⟩ := label_eq_some labelled
  have listed : k ∈ kids a := (is.hung a k).mpr ⟨p, _, here, below⟩
  have misses := Chain.search_eq_none.mp (Option.map_eq_none_iff.mp finds) k listed
  rw [hasName_stored stored, decide_eq_false_iff_not, nameMatches_iff (named ▸ noNul), take_length_token] at misses
  exact misses named

/-- What `get_cached_inode_num` has done: it has gone down as far as the cache goes. -/
structure Traced (tree : FileTree) (paths : List (List (List UInt8))) (p : List (List UInt8)) (path : List UInt8)
    (w : CachedWalk) : Prop where
  cache : ∃ kids, CacheIs tree w.d kids paths
  fits : PathFits w.path
  down : ∃ names, components path = names ++ components w.path ∧ paths[w.next.getD 0]? = some (p ++ names) ∧
    ∀ name rest, components w.path = name :: rest → p ++ names ++ [name] ∉ paths

theorem traces (is : CacheIs tree d kids paths) {path : List UInt8} (fits : PathFits path)
    (single : SingleSlashes path) {next : Option Nat}
    {p : List (List UInt8)} (here : paths[next.getD 0]? = some p) :
    ∃ w, Exec.Returns (fun fuel => Exec.loop (cachedPass fuel) fuel ⟨path, next, d⟩) w ∧
      Traced tree paths p path w := by
  induction size : path.length using Nat.strong_induction_on generalizing path next d kids p with
  | _ size ih =>
      subst size
      by_cases empty : token (skipOne path) = []
      · refine ⟨⟨skipOne path, next, d⟩, (Exec.returns_loop cachedPass_growing).mpr
          ⟨_, cachedPass_ends fits empty, rfl⟩, ⟨kids, is⟩, fits.skipOne, [], (components_skipOne path).symm,
          by rwa [List.append_nil], ?_⟩
        intro name rest starts
        rw [components_skipOne, components_behind single empty] at starts
        cases starts
      · obtain ⟨n, _, points⟩ := is.points here
        obtain ⟨d', kids', looks, shape, labels, same, members⟩ :=
          dcacheLookup_spec is.shape points.inside (skipOne path) (token (skipOne path)).length
        have turned := is.turned shape labels same members
        have split : components path = token (skipOne path) :: components (afterToken (skipOne path)) := by
          rw [← components_skipOne path, components_token empty]
        cases finds : firstNamed d (kids (next.getD 0)) (skipOne path) (token (skipOne path)).length with
        | none =>
            rw [finds] at looks
            have pass := cachedPass_looks ⟨path, next, d⟩ fits empty looks
            refine ⟨⟨skipOne path, next, d'⟩, (Exec.returns_loop cachedPass_growing).mpr ⟨_, pass, rfl⟩,
              ⟨kids', turned⟩, fits.skipOne, [], (components_skipOne path).symm, by rwa [List.append_nil], ?_⟩
            intro name rest starts
            rw [components_skipOne, split] at starts
            cases starts
            rw [List.append_nil]
            exact is.missed here finds
        | some k =>
            rw [finds] at looks
            have pass := cachedPass_looks ⟨path, next, d⟩ fits empty looks
            have below : paths[(some k).getD 0]? = some (p ++ [token (skipOne path)]) := is.found here finds
            have shorter := (afterToken_shorter empty).trans_le (length_skipOne_le path)
            have ends : afterToken (skipOne path) <:+ path := (List.dropWhile_suffix _).trans (skipOne_suffix path)
            obtain ⟨w, returns, traced⟩ :=
              ih _ shorter turned (fits.skipOne.afterToken empty) (single.suffix ends) below rfl
            obtain ⟨names, later, reached, stops⟩ := traced.down
            refine ⟨w, (Exec.returns_loop cachedPass_growing).mpr ⟨_, pass, returns⟩, traced.cache, traced.fits,
              token (skipOne path) :: names, ?_, ?_, ?_⟩
            · rw [split, later]
              rfl
            · rw [reached, List.append_assoc]
              rfl
            · intro name rest starts
              have missing := stops name rest starts
              rwa [List.append_assoc p] at missing

/-! ## Insertion -/

theorem insert (is : CacheIs tree d kids paths) {address : Nat} {entry : DcacheEntry} {p : List (List UInt8)}
    (inserted : Inserted d d' kids kids' address entry) (here : paths[address]? = some p)
    (fresh : p ++ [entry.name] ∉ paths) (noNul : 0 ∉ entry.name) (short : entry.name.length < dcacheEntryNameLen)
    (reached : tree.lookup rootInodeN (p ++ [entry.name]) = some entry.inode) :
    CacheIs tree d' kids' (paths ++ [p ++ [entry.name]]) := by
  have known : p ∈ paths := List.mem_of_getElem? here
  refine ⟨inserted.base is.toCacheBase, ?_, ?_, ?_, ?_, ?_, ?_⟩
  · rw [List.length_append, inserted.size, is.size]
    rfl
  · apply List.nodup_append.mpr
    refine ⟨is.distinct, List.nodup_singleton _, ?_⟩
    intro a member b last same
    rw [List.mem_singleton] at last
    exact fresh (last ▸ same ▸ member)
  · exact getElem?_snoc.mpr (.inl is.first)
  · intro q name member
    rcases List.mem_append.mp member with old | new
    · exact List.mem_append_left _ (is.above q name old)
    · obtain ⟨rfl, _⟩ := List.append_inj' (List.mem_singleton.mp new) rfl
      exact List.mem_append_left _ known
  · intro a k
    rw [inserted.members, is.hung]
    constructor
    · rintro (⟨q, name, parent, below⟩ | ⟨rfl, rfl⟩)
      · exact ⟨q, name, getElem?_snoc.mpr (.inl parent), getElem?_snoc.mpr (.inl below)⟩
      · exact ⟨p, entry.name, getElem?_snoc.mpr (.inl here), getElem?_snoc.mpr (.inr ⟨is.size.symm, rfl⟩)⟩
    · rintro ⟨q, name, parent, below⟩
      rcases getElem?_snoc.mp below with old | ⟨rfl, same⟩
      · rcases getElem?_snoc.mp parent with elder | ⟨_, rfl⟩
        · exact .inl ⟨q, name, elder, old⟩
        · exact absurd (is.above _ _ (List.mem_of_getElem? old)) fresh
      · obtain ⟨rfl, _⟩ := List.append_inj' same rfl
        rcases getElem?_snoc.mp parent with elder | ⟨_, looped⟩
        · exact .inr ⟨is.unique elder here, is.size⟩
        · exact absurd (looped ▸ known) fresh
  · intro k q name below
    rcases getElem?_snoc.mp below with old | ⟨rfl, same⟩
    · obtain ⟨clean, fits, n, found, labelled⟩ := is.holds k q name old
      have less : k < d.entries.length := is.size ▸ (List.getElem?_eq_some_iff.mp old).1
      exact ⟨clean, fits, n, found, (inserted.old k less).trans labelled⟩
    · obtain ⟨rfl, last⟩ := List.append_inj' same rfl
      cases last
      rw [is.size]
      exact ⟨noNul, short, entry.inode, reached, inserted.new⟩

theorem inserts (is : CacheIs tree d kids paths) {parent : Option Nat} {p : List (List UInt8)} {path : List UInt8}
    {n : Nat} (here : paths[parent.getD 0]? = some p) (short : (token path).length < dcacheEntryNameLen)
    (noNul : 0 ∉ path) (fresh : p ++ [token path] ∉ paths)
    (reached : tree.lookup rootInodeN (p ++ [token path]) = some n) {entry : Option Nat}
    (returns : dcacheInsert d parent path (token path).length n = .ok (entry, d')) :
    entry = some d.entries.length ∧ ∃ kids', CacheIs tree d' kids' (paths ++ [p ++ [token path]]) := by
  obtain ⟨_, _, points⟩ := is.points here
  have rooted : parent = none → ∀ root, d.entries[0]? = some root → root.inode ≠ 0 := by
    intro _ root stored
    obtain ⟨name, labelled⟩ := is.root
    obtain ⟨_, same, inode, _⟩ := label_eq_some labelled
    rw [stored] at same
    cases same
    rw [inode]
    decide
  obtain ⟨d₂, kids', new, inserts, inserted, rfl, named⟩ :=
    dcacheInsert_spec is.shape points.inside rooted path short n
  rw [returns] at inserts
  cases inserts
  rw [take_length_token] at named
  have clean : 0 ∉ token path := fun member => noNul ((List.takeWhile_sublist _).subset member)
  rw [← named] at fresh reached clean short ⊢
  exact ⟨rfl, kids', is.insert inserted here fresh clean short reached⟩

end CacheIs

/-! ## Walking the disk -/

/-- The walk from `dir`, whose path is `p`, has added the names that lead somewhere and fit in an entry. -/
def GrowsBy (tree : FileTree) (p : List (List UInt8)) (dir : Nat) (names : List (List UInt8))
    (paths paths' : List (List (List UInt8))) : Prop :=
  ∀ x, x ∈ paths' ↔ x ∈ paths ∨ ∃ q, x = p ++ q ∧ q <+: names ∧ (tree.lookup dir q).isSome ∧ Short q

section
variable {fs : Fs} {bufsize : Nat} {tree : FileTree} {paths : List (List (List UInt8))} {p : List (List UInt8)}

theorem GrowsBy.stays {dir : Nat} {names : List (List UInt8)} (known : p ∈ paths)
    (nothing : ∀ q, q <+: names → (tree.lookup dir q).isSome → Short q → q = []) : GrowsBy tree p dir names paths paths := by
  intro x
  constructor
  · exact .inl
  · rintro (old | ⟨q, rfl, starts, reached, short⟩)
    · exact old
    · rw [nothing q starts reached short, List.append_nil]
      exact known

theorem GrowsBy.adds {dir n : Nat} {name : List UInt8} {rest : List (List UInt8)} {paths' : List (List (List UInt8))}
    (known : p ∈ paths) (short : name.length < dcacheEntryNameLen)
    (onward : ∀ q, tree.lookup dir (name :: q) = tree.lookup n q)
    (grows : GrowsBy tree (p ++ [name]) n rest (paths ++ [p ++ [name]]) paths') :
    GrowsBy tree p dir (name :: rest) paths paths' := by
  intro x
  rw [grows x, List.mem_append, List.mem_singleton]
  constructor
  · rintro ((old | rfl) | ⟨q, rfl, starts, reached, shorts⟩)
    · exact .inl old
    · refine .inr ⟨[name], rfl, ⟨rest, rfl⟩, ?_, List.forall_mem_singleton.mpr short⟩
      rw [onward]
      rfl
    · refine .inr ⟨name :: q, by simp, List.cons_prefix_cons.mpr ⟨rfl, starts⟩, by rwa [onward], ?_⟩
      exact List.forall_mem_cons.mpr ⟨short, shorts⟩
  · rintro (old | ⟨q, rfl, starts, reached, shorts⟩)
    · exact .inl (.inl old)
    · cases q with
      | nil =>
          rw [List.append_nil]
          exact .inl (.inl known)
      | cons first q =>
          obtain ⟨rfl, later⟩ := List.cons_prefix_cons.mp starts
          rw [onward] at reached
          exact .inr ⟨q, by simp, later, reached, (List.forall_mem_cons.mp shorts).2⟩

/-- A name that does not fit in an entry is the last one. -/
theorem Stores.long_last (stores : Stores fs bufsize tree) {dir n : Nat} {stat : Stat} {list : List Item}
    {name : List UInt8} {rest : List (List UInt8)} (listed : tree dir = some ⟨stat, .directory list⟩)
    (found : child list name = some n) (long : ¬ name.length < dcacheEntryNameLen)
    (dirs : tree.ThroughDirs n rest) : rest = [] := by
  cases rest with
  | nil => rfl
  | cons second rest =>
      obtain ⟨stat', list', listed', _⟩ := dirs
      obtain ⟨item, member, rfl, rfl⟩ := child_mem found
      exact absurd (stores.short dir stat list item stat' list' listed member listed') long

theorem Stores.walk_grows (stores : Stores fs bufsize tree) {names : List (List UInt8)} {s : PathWalk}
    {kids : Nat → List Nat} (is : CacheIs tree s.d kids paths) (here : paths[s.dcEntry.getD 0]? = some p)
    (at_ : tree.lookup rootInodeN p = some s.inodeIdx) (fits : PathFits s.path) (split : components s.path = names)
    (dirs : tree.ThroughDirs s.inodeIdx names)
    (fresh : ∀ name rest, names = name :: rest → p ++ [name] ∉ paths) {result : Nat} {d' : Dcache}
    (returns : Exec.Returns (walkFrom fs s) (result, d')) :
    ∃ kids' paths', CacheIs tree d' kids' paths' ∧ GrowsBy tree p s.inodeIdx names paths paths' := by
  induction names generalizing s kids paths p with
  | nil =>
      cases (walkFrom_nil (skip_of_components_nil split)).mp returns
      exact ⟨kids, paths, is, .stays (List.mem_of_getElem? here) fun q starts _ _ => List.prefix_nil.mp starts⟩
  | cons name rest ih =>
      have known : p ∈ paths := List.mem_of_getElem? here
      obtain ⟨q, skips, kept, named, rfl, later, after⟩ := components_split fits split
      obtain ⟨isDir, found, finds, next⟩ := (walkFrom_cons skips kept named).mp returns
      obtain ⟨stat, list, listed, onward⟩ := dirs
      obtain ⟨rfl, same⟩ := Prod.mk.inj (finds.unique (stores.finds listed (token q)))
      cases found with
      | none =>
          cases next
          refine ⟨kids, paths, is, .stays known ?_⟩
          intro r starts reached _
          cases r with
          | nil => rfl
          | cons first r =>
              obtain ⟨rfl, _⟩ := List.cons_prefix_cons.mp starts
              rw [FileTree.lookup_missing listed same.symm] at reached
              cases reached
      | some n =>
          obtain ⟨dcEntry, d₁, remembers, returns'⟩ := next
          rw [rememberDentry, if_pos rfl] at remembers
          by_cases short : (token q).length < dcacheEntryNameLen
          · have reached : tree.lookup rootInodeN (p ++ [token q]) = some n := by
              rw [FileTree.lookup_append, at_]
              exact FileTree.lookup_child listed same.symm []
            have missing := fresh _ _ rfl
            obtain ⟨rfl, kids₁, grown⟩ := is.inserts here short kept.noNul missing reached remembers
            have below : (paths ++ [p ++ [token q]])[(some s.d.entries.length).getD 0]? = some (p ++ [token q]) :=
              getElem?_snoc.mpr (.inr ⟨is.size.symm, rfl⟩)
            have freshBelow : ∀ second more, components (afterToken q) = second :: more →
                p ++ [token q] ++ [second] ∉ paths ++ [p ++ [token q]] := by
              intro second more _ member
              rcases List.mem_append.mp member with old | new
              · exact missing (is.above _ _ old)
              · have size := congrArg List.length (List.mem_singleton.mp new)
                simp at size
            obtain ⟨kids', paths', is', grows⟩ := ih (s := ⟨afterToken q, n, some s.d.entries.length, d₁⟩)
              grown below reached after later (onward _ same.symm) (later ▸ freshBelow) returns'
            exact ⟨kids', paths', is', .adds known short (FileTree.lookup_child listed same.symm) grows⟩
          · obtain rfl := stores.long_last listed same.symm short (onward n same.symm)
            rw [dcacheInsert, if_pos (by omega)] at remembers
            cases remembers
            cases (walkFrom_nil (skip_of_components_nil later)).mp returns'
            refine ⟨kids, paths, is, .stays known ?_⟩
            intro r starts _ shorts
            cases r with
            | nil => rfl
            | cons first r =>
                obtain ⟨rfl, _⟩ := List.cons_prefix_cons.mp starts
                exact absurd (List.forall_mem_cons.mp shorts).1 short

end

/-! ## Whole calls -/

/-- The beginnings of a path that the cache is to hold: those that lead somewhere, with names that fit. -/
def FileTree.Remembers (tree : FileTree) (path : List UInt8) (p : List (List UInt8)) : Prop :=
  p <+: components path ∧ (tree.lookup rootInodeN p).isSome ∧ Short p

theorem FileTree.ThroughDirs.rest {tree : FileTree} {dir n : Nat} {names rest : List (List UInt8)}
    (dirs : tree.ThroughDirs dir (names ++ rest)) (reached : tree.lookup dir names = some n) :
    tree.ThroughDirs n rest := by
  induction names generalizing dir with
  | nil =>
      cases reached
      exact dirs
  | cons name names ih =>
      obtain ⟨stat, list, listed, later⟩ := dirs
      cases found : child list name with
      | none =>
          rw [lookup_missing listed found] at reached
          cases reached
      | some k =>
          rw [lookup_child listed found] at reached
          exact ih (later k found) reached

section
variable {fs : Fs} {bufsize : Nat} {tree : FileTree} {d : Dcache} {kids : Nat → List Nat}
  {paths : List (List (List UInt8))} {path : List UInt8}

theorem Stores.call_grows (stores : Stores fs bufsize tree) (is : CacheIs tree d kids paths)
    (kernel : tree.KernelPath path) (single : SingleSlashes path) {n : Nat} {d' : Dcache}
    (returns : Exec.Returns (inodeGetIdxByPath fs d path) (n, d')) :
    ∃ kids' paths', CacheIs tree d' kids' paths' ∧ ∀ x, x ∈ paths' ↔ x ∈ paths ∨ tree.Remembers path x := by
  have root : paths[(none : Option Nat).getD 0]? = some [] := is.first
  obtain ⟨w, cached, traced⟩ := is.traces kernel.fits single root
  obtain ⟨kids₁, is₁⟩ := traced.cache
  obtain ⟨names, split, here, stops⟩ := traced.down
  rw [List.nil_append] at here stops
  obtain ⟨dir, reached, points⟩ := is₁.points here
  have walks := (inodeGetIdxByPath_iff kernel.absolute cached points).mp returns
  have dirs := kernel.dirs
  rw [split] at dirs
  obtain ⟨kids', paths', is', grows⟩ := stores.walk_grows (s := ⟨w.path, dir, w.next, w.d⟩) is₁ here reached
    traced.fits rfl (dirs.rest reached) stops walks
  refine ⟨kids', paths', is', ?_⟩
  intro x
  rw [grows x, FileTree.Remembers, split]
  constructor
  · rintro (old | ⟨q, rfl, starts, found, short⟩)
    · exact .inl old
    · refine .inr ⟨(List.prefix_append_right_inj names).mpr starts, ?_, ?_⟩
      · rwa [FileTree.lookup_append, reached]
      · exact List.forall_mem_append.mpr ⟨(is.kept (List.mem_of_getElem? here)).2, short⟩
  · rintro (old | ⟨starts, found, short⟩)
    · exact .inl old
    · obtain ⟨rest, whole⟩ := starts
      rcases List.append_eq_append_iff.mp whole with ⟨q, rfl, _⟩ | ⟨q, rfl, later⟩
      · exact .inl (is.of_prefix (List.mem_of_getElem? here))
      · refine .inr ⟨q, rfl, ⟨rest, later.symm⟩, ?_, (List.forall_mem_append.mp short).2⟩
        rwa [FileTree.lookup_append, reached] at found

/-- A path that is in the cache is found without the disk: whatever is on it, the answer is the same. -/
theorem CacheIs.hits (is : CacheIs tree d kids paths) (absolute : path.getD 0 0 = slash) (fits : PathFits path)
    (single : SingleSlashes path) (member : components path ∈ paths) :
    ∃ n d', tree.resolve path = some n ∧ ∀ other, Exec.Returns (inodeGetIdxByPath other d path) (n, d') := by
  have root : paths[(none : Option Nat).getD 0]? = some [] := is.first
  obtain ⟨w, cached, traced⟩ := is.traces fits single root
  obtain ⟨kids₁, is₁⟩ := traced.cache
  obtain ⟨names, split, here, stops⟩ := traced.down
  rw [List.nil_append] at here stops
  have whole : components w.path = [] := by
    cases left : components w.path with
    | nil => rfl
    | cons name rest =>
        rw [split, left, List.append_cons] at member
        exact absurd (is.of_prefix member) (stops name rest left)
  rw [whole, List.append_nil] at split
  obtain ⟨n, reached, points⟩ := is₁.points here
  refine ⟨n, w.d, by rw [FileTree.resolve, split, reached], ?_⟩
  intro other
  apply (inodeGetIdxByPath_iff absolute cached points).mpr
  exact (walkFrom_nil (skip_of_components_nil whole)).mpr rfl

end

/-! ## Sessions -/

/-- The path that a request looks up. -/
def lookedUp : Request → Option (List UInt8)
  | .getattr path => some path
  | .readdir path _ _ => some path
  | .open path flags => if flags % 4 ≠ 0 then none else some path
  | .read _ _ _ => none
  | .readlink path _ => some path

theorem inodeGetByPath_dcache {fs : Fs} {d d' : Dcache} {path : List UInt8} {fuel : Nat} {inode : Option Inode}
    (runs : inodeGetByPath fs d path fuel = .ok (inode, d')) :
    ∃ n, Exec.Returns (inodeGetIdxByPath fs d path) (n, d') := by
  obtain ⟨⟨n, d₁⟩, looks, rest⟩ := Exec.bind_eq_ok.mp runs
  obtain ⟨_, _, same⟩ := Exec.bind_eq_ok.mp rest
  cases same
  exact ⟨n, fuel, looks⟩

/-- A request changes the cache by one lookup at most. -/
theorem e4fOps_dcache {fs : Fs} {s s' : Session} {request : Request} {reply : Reply}
    (returns : Exec.Returns (e4fOps fs s request) (reply, s')) :
    (lookedUp request = none ∧ s'.dcache = s.dcache) ∨
      ∃ path n, lookedUp request = some path ∧ Exec.Returns (inodeGetIdxByPath fs s.dcache path) (n, s'.dcache) := by
  obtain ⟨fuel, runs⟩ := returns
  cases request with
  | getattr path =>
      obtain ⟨⟨ret, stbuf, d'⟩, op, same⟩ := Exec.bind_eq_ok.mp runs
      cases same
      obtain ⟨⟨n, d₁⟩, looks, rest⟩ := Exec.bind_eq_ok.mp op
      obtain ⟨record, _, stat⟩ := Exec.bind_eq_ok.mp rest
      refine .inr ⟨path, n, rfl, fuel, ?_⟩
      cases record with
      | none =>
          cases stat
          exact looks
      | some raw =>
          obtain ⟨_, _, same⟩ := Exec.bind_eq_ok.mp stat
          cases same
          exact looks
  | readdir path offset room =>
      obtain ⟨⟨ret, filled, d'⟩, op, same⟩ := Exec.bind_eq_ok.mp runs
      cases same
      obtain ⟨⟨inode, d₁⟩, looks, rest⟩ := Exec.bind_eq_ok.mp op
      obtain ⟨n, reaches⟩ := inodeGetByPath_dcache looks
      refine .inr ⟨path, n, rfl, ?_⟩
      cases inode with
      | none =>
          cases rest
          exact reaches
      | some inode =>
          obtain ⟨_, _, same⟩ := Exec.bind_eq_ok.mp rest
          cases same
          exact reaches
  | «open» path flags =>
      obtain ⟨⟨ret, fh, d'⟩, op, same⟩ := Exec.bind_eq_ok.mp runs
      cases same
      rw [opOpen] at op
      rw [lookedUp]
      split at op
      next writes =>
        cases op
        exact .inl ⟨if_pos writes, rfl⟩
      next reads =>
        obtain ⟨⟨n, d₁⟩, looks, same⟩ := Exec.bind_eq_ok.mp op
        cases same
        exact .inr ⟨path, n, if_neg reads, fuel, looks⟩
  | read file size offset =>
      rw [e4fOps] at runs
      cases held : s.files[file]? with
      | none =>
          rw [held] at runs
          cases runs
      | some fh =>
          rw [held] at runs
          obtain ⟨_, _, same⟩ := Exec.bind_eq_ok.mp runs
          cases same
          exact .inl ⟨rfl, rfl⟩
  | readlink path buf =>
      obtain ⟨⟨ret, buf', d'⟩, op, same⟩ := Exec.bind_eq_ok.mp runs
      cases same
      obtain ⟨⟨inode, d₁⟩, looks, rest⟩ := Exec.bind_eq_ok.mp op
      obtain ⟨n, reaches⟩ := inodeGetByPath_dcache looks
      refine .inr ⟨path, n, rfl, ?_⟩
      cases inode with
      | none => cases rest
      | some inode =>
          simp only at rest
          split at rest
          · obtain ⟨_, _, same⟩ := Exec.bind_eq_ok.mp rest
            cases same
            exact reaches
          · cases rest
            exact reaches

theorem FileTree.Allowed.kernel {tree : FileTree} {bufsize : Nat} {files : List Nat} {request : Request}
    (allowed : tree.Allowed bufsize files request) {path : List UInt8} (looks : lookedUp request = some path) :
    tree.KernelPath path := by
  cases request with
  | getattr path' =>
      cases looks
      exact allowed
  | readdir path' offset room =>
      cases looks
      exact allowed.1
  | «open» path' flags =>
      rw [lookedUp] at looks
      split at looks
      next => cases looks
      next =>
        cases looks
        exact allowed
  | read file size offset => cases looks
  | readlink path' buf =>
      cases looks
      exact allowed.1

/-- The cache is the root and what the requests so far have found. -/
def CacheServed (tree : FileTree) (served : List Request) (s : Session) : Prop :=
  ∃ kids paths, CacheIs tree s.dcache kids paths ∧ ∀ x, x ∈ paths ↔ x = [] ∨
    ∃ request ∈ served, ∃ path, lookedUp request = some path ∧ tree.Remembers path x

theorem Stores.request_grows {fs : Fs} {bufsize : Nat} {tree : FileTree} (stores : Stores fs bufsize tree)
    {served : List Request} {s s' : Session} {files : List Nat} {request : Request} {reply : Reply}
    (holds : CacheServed tree served s) (allowed : tree.Allowed bufsize files request)
    (single : ∀ path, lookedUp request = some path → SingleSlashes path)
    (returns : Exec.Returns (e4fOps fs s request) (reply, s')) : CacheServed tree (served ++ [request]) s' := by
  obtain ⟨kids, paths, is, members⟩ := holds
  rcases e4fOps_dcache returns with ⟨nothing, same⟩ | ⟨path, n, looks, reaches⟩
  · refine ⟨kids, paths, by rwa [same], ?_⟩
    intro x
    simp [members, List.mem_append, or_and_right, exists_or, nothing]
  · obtain ⟨kids', paths', is', grown⟩ := stores.call_grows is (allowed.kernel looks) (single path looks) reaches
    refine ⟨kids', paths', is', ?_⟩
    intro x
    simp [grown, members, List.mem_append, or_and_right, exists_or, looks, or_assoc]

/-- After every session the cache holds one entry for each path that was found, and finds it again without
the disk. -/
theorem cache_holds_served {disk : Disk} {fs : Fs} {s : Session} (mounted : fuseMain disk = .ok (some (fs, s)))
    {bufsize : Nat} {tree : FileTree} (stores : Stores fs bufsize tree) {requests : List Request}
    (allowed : AllAllowed tree.answer (tree.Allowed bufsize) [] requests)
    (single : ∀ request ∈ requests, ∀ path, lookedUp request = some path → SingleSlashes path) :
    ∃ s' kids paths, Exec.Returns (serveAll (e4fOps fs) s requests) ((answerAll tree.answer [] requests).1, s') ∧
      CacheIs tree s'.dcache kids paths ∧
      (∀ x, x ∈ paths ↔ x = [] ∨
        ∃ request ∈ requests, ∃ path, lookedUp request = some path ∧ tree.Remembers path x) ∧
      ∀ path, path.getD 0 0 = slash → PathFits path → SingleSlashes path → components path ∈ paths →
        ∃ n d', tree.resolve path = some n ∧
          ∀ other, Exec.Returns (inodeGetIdxByPath other s'.dcache path) (n, d') := by
  obtain rfl := fuseMain_starts mounted
  have start : SessionValid fs tree ⟨inodeInit, []⟩ [] := ⟨⟨_, inodeInit_valid fs⟩, rfl, by simp⟩
  have empty : CacheServed tree [] ⟨inodeInit, []⟩ := ⟨_, _, CacheIs.init tree, by simp⟩
  -- The slashes of a request are known only once it has been served, so they stand in the fact that is kept.
  obtain ⟨s', returns, holds⟩ := stores.simulates.run_keeps
    (fun served s => (∀ request ∈ served, ∀ path, lookedUp request = some path → SingleSlashes path) →
      CacheServed tree served s)
    (by
      intro served s a request reply s' _ here holds step plain
      obtain ⟨before, last⟩ := List.forall_mem_append.mp plain
      exact stores.request_grows (holds before) here (List.forall_mem_singleton.mp last) step)
    start (fun _ => empty) allowed
  obtain ⟨kids, paths, is, members⟩ := holds single
  exact ⟨s', kids, paths, returns, is, members, fun path absolute fits plain => is.hits absolute fits plain⟩

theorem singleSlashes_mount : ∀ request ∈ mountRequests, ∀ path, lookedUp request = some path → SingleSlashes path := by
  have plain : ∀ request ∈ mountRequests, (lookedUp request).all fun path => decide (SingleSlashes path) := by
    decide
  intro request member path looks
  have here := plain request member
  rw [looks] at here
  exact of_decide_eq_true here

theorem cache_holds_served_mount : ∃ s' kids paths,
    Exec.Returns (serveAll (e4fOps mountFs) ⟨inodeInit, []⟩ mountRequests)
        ((answerAll mountTree.answer [] mountRequests).1, s') ∧
      CacheIs mountTree s'.dcache kids paths ∧
      (∀ x, x ∈ paths ↔ x = [] ∨
        ∃ request ∈ mountRequests, ∃ path, lookedUp request = some path ∧ mountTree.Remembers path x) ∧
      ∀ path, path.getD 0 0 = slash → PathFits path → SingleSlashes path → components path ∈ paths →
        ∃ n d', mountTree.resolve path = some n ∧
          ∀ other, Exec.Returns (inodeGetIdxByPath other s'.dcache path) (n, d') :=
  cache_holds_served mountFs_mounted mountTree_stored mountRequests_allowed singleSlashes_mount

-- Behind a second slash the name is inserted again.
example : (do
    let (_, d) ← inodeGetIdxByPath mountFs inodeInit (slash :: nameC) 20
    let (_, d) ← inodeGetIdxByPath mountFs d (slash :: slash :: nameC) 20
    return d.entries.length) = .ok 3 := by decide +kernel

end SampleFs.Proof.Fuse

import SampleFs.Lib.Trace
import SampleFs.Proof.Fuse.CacheShape

namespace SampleFs.Proof.Fuse
open Lib SampleFs.Fuse

/-! ## The bytes of a name -/

/-- A name argument: `namelen` bytes before any NUL, in memory that may go on behind them. -/
structure NameArg (name : List UInt8) (namelen : Nat) : Prop where
  pos : 0 < namelen
  short : namelen ≤ 255
  inside : namelen ≤ name.length
  noNul : 0 ∉ name.take namelen

theorem strncmpReads_eq {a b : List UInt8} {n zeros : Nat} (noNul : 0 ∉ a) (ended : 0 < zeros) (inside : n ≤ b.length)
    (noNul' : 0 ∉ b.take n) : strncmpReads (a ++ List.replicate zeros 0) b n = .ok (decide (b.take n <+: a)) := by
  induction n generalizing a b with
  | zero => simp [strncmpReads]
  | succ n ih =>
      cases b with
      | nil => simp at inside
      | cons y b =>
          have nonzero : y ≠ 0 := by
            rintro rfl
            exact noNul' (by simp)
          cases a with
          | nil =>
              obtain ⟨zeros, rfl⟩ : ∃ k, zeros = k + 1 := ⟨zeros - 1, by omega⟩
              simp [List.replicate_succ, strncmpReads, nonzero.symm]
          | cons x a =>
              by_cases same : x = y
              · subst same
                have rest := @ih a b (fun member => noNul (List.mem_cons_of_mem x member)) (by simpa using inside)
                  (fun member => noNul' (by simp [member]))
                simpa [strncmpReads, nonzero] using rest
              · simp [strncmpReads, same, Ne.symm same]

theorem begins_iff {entry : DcacheEntry} {name : List UInt8} {namelen : Nat} (inside : namelen ≤ name.length) :
    name.take namelen <+: entry.name ↔ entry.name.take namelen = name.take namelen := by
  rw [List.prefix_iff_eq_take, List.length_take_of_le inside, eq_comm]

-- Where the first `namelen` bytes agree they all lie in the name, so the next one lies in the array.
theorem nameReads_eq {entry : DcacheEntry} {name : List UInt8} {namelen : Nat} (noNul : 0 ∉ entry.name)
    (short : entry.name.length < dcacheEntryNameLen) (arg : NameArg name namelen) :
    nameReads entry name namelen = .ok (decide (nameMatches entry name namelen)) := by
  have compared := strncmpReads_eq noNul (Nat.sub_pos_of_lt short) arg.inside arg.noNul
  unfold nameReads
  rw [DcacheEntry.nameArray, compared, ← DcacheEntry.nameArray, Exec.ok_bind]
  by_cases begins : name.take namelen <+: entry.name
  · have within : namelen ≤ entry.name.length :=
      List.length_take_of_le arg.inside ▸ begins.length_le
    have byte : entry.nameArray[namelen]? = some (entry.name.getD namelen 0) := by
      rw [DcacheEntry.nameArray]
      by_cases less : namelen < entry.name.length
      · rw [List.getElem?_append_left less, List.getElem?_eq_getElem less, List.getD_eq_getElem _ _ less]
      · rw [List.getElem?_append_right (by omega), List.getElem?_replicate, if_pos (by omega),
          List.getD_eq_default _ _ (by omega)]
    simp [begins, byte, nameMatches, (begins_iff arg.inside).mp begins]
  · have differs : ¬ nameMatches entry name namelen := fun same => begins ((begins_iff arg.inside).mpr same.1)
    simp [begins, differs]

/-! ## Runs of the cache -/

inductive CacheCall where
  | insert (parent : Option Nat) (name : List UInt8) (namelen n : Nat)
  | lookup (parent : Option Nat) (name : List UInt8) (namelen : Nat)

-- An entry that was returned earlier is one that was allocated.
def CacheCall.Allowed (d : Dcache) : CacheCall → Prop
  | .insert parent name namelen _ => parent.getD 0 < d.entries.length ∧ NameArg name namelen
  | .lookup parent name namelen => parent.getD 0 < d.entries.length ∧ NameArg name namelen

def cacheStep : System Dcache CacheCall (Option Nat) :=
  fun d call ret d' => call.Allowed d ∧ match call with
    | .insert parent name namelen n => dcacheInsert d parent name namelen n = .ok (ret, d')
    | .lookup parent name namelen => Exec.Returns (dcacheLookup d parent name namelen) (ret, d')

/-- A child that was inserted: below which entry, at which address and under which name. -/
structure Child where
  parent : Nat
  address : Nat
  name : List UInt8
deriving DecidableEq, Repr

def recordCall (children : List Child) : CacheCall × Option Nat → List Child
  | (.insert parent name namelen _, some address) => ⟨parent.getD 0, address, name.take namelen⟩ :: children
  | _ => children

def childrenAfter (history : List (CacheCall × Option Nat)) : List Child := history.foldl recordCall []

/-- The children of every entry hang in one ring from its `childs`: each inserted one once, and no other. -/
structure ChildRings (d : Dcache) (children : List Child) (kids : Nat → List Nat) : Prop where
  heads : ∀ a entry, d.entries[a]? = some entry → entry.childs = (kids a).head?
  rings : ∀ a, Ring (siblingOf d) (kids a)
  once : ∀ a, (kids a).Nodup
  members : ∀ a k, k ∈ kids a ↔ ∃ child ∈ children, child.parent = a ∧ child.address = k

structure LooksUp (d : Dcache) (children : List Child) (kids : Nat → List Nat) (parent : Option Nat)
    (name : List UInt8) (namelen : Nat) (visited : List Nat) (found : Option Nat) (d' : Dcache) : Prop where
  returns : Exec.Returns (dcacheLookup d parent name namelen) (found, d')
  inBounds : Exec.Returns (dcacheLookupVisits d parent name namelen) (visited, found, d')
  once : visited.Nodup
  onlyChildren : ∀ k ∈ visited, k ∈ kids (parent.getD 0)
  inserted : ∀ k, found = some k → ⟨parent.getD 0, k, name.take namelen⟩ ∈ children
  complete : ∀ child ∈ children, child.parent = parent.getD 0 → child.name = name.take namelen → ∃ k, found = some k

structure CacheTree (d : Dcache) (children : List Child) (kids : Nat → List Nat) : Prop where
  shape : Shape d kids
  members : ∀ a k, k ∈ kids a ↔ ∃ child ∈ children, child.parent = a ∧ child.address = k
  stored : ∀ child ∈ children, ∃ n, label d child.address = some (n, child.name)
  clean : ∀ child ∈ children, 0 ∉ child.name ∧ child.name.length < dcacheEntryNameLen

variable {d : Dcache} {children : List Child} {kids : Nat → List Nat}

theorem CacheTree.init (n : Nat) : CacheTree (dcacheInitRoot n) [] fun _ => [] := by
  refine ⟨Shape.init n, ?_, ?_, ?_⟩
  · simp
  · simp
  · simp

theorem CacheTree.turned {d' : Dcache} {kids' : Nat → List Nat} (tree : CacheTree d children kids)
    (shape : Shape d' kids') (labels : label d' = label d) (members : ∀ a k, k ∈ kids' a ↔ k ∈ kids a) :
    CacheTree d' children kids' where
  shape := shape
  members := fun a k => (members a k).trans (tree.members a k)
  stored := labels ▸ tree.stored
  clean := tree.clean

theorem CacheTree.grown {d' : Dcache} {kids' : Nat → List Nat} {address : Nat} {entry : DcacheEntry}
    (tree : CacheTree d children kids) (inserted : Inserted d d' kids kids' address entry)
    (noNul : 0 ∉ entry.name) (short : entry.name.length < dcacheEntryNameLen) :
    CacheTree d' (⟨address, d.entries.length, entry.name⟩ :: children) kids' where
  shape := inserted.shape
  members := by
    intro a k
    rw [inserted.members, tree.members, List.exists_mem_cons_iff, or_comm, eq_comm, @eq_comm _ k]
  stored := by
    intro child member
    rcases List.mem_cons.mp member with rfl | old
    · exact ⟨entry.inode, inserted.new⟩
    · have kid := (tree.members child.parent child.address).mpr ⟨child, old, rfl, rfl⟩
      rw [inserted.old _ (tree.shape.younger _ _ kid).2]
      exact tree.stored child old
  clean := by
    intro child member
    rcases List.mem_cons.mp member with rfl | old
    · exact ⟨noNul, short⟩
    · exact tree.clean child old

theorem rooted_of_insert {parent ret : Option Nat} {name : List UInt8} {namelen n : Nat} {d' : Dcache}
    (short : namelen < dcacheEntryNameLen) (returned : dcacheInsert d parent name namelen n = .ok (ret, d')) :
    parent = none → ∀ root, d.entries[0]? = some root → root.inode ≠ 0 := by
  rintro rfl root stored
  have loaded : d.load (some 0) = .ok root := load_eq stored
  simp only [dcacheInsert, if_neg (Nat.not_lt.mpr (Nat.succ_le_of_lt short)), Option.getD_none, loaded,
    Exec.ok_bind] at returned
  obtain ⟨_, passes, _⟩ := Exec.bind_eq_ok.mp returned
  exact (Exec.check_eq_ok.mp passes).resolve_left (fun some => some rfl)

theorem CacheTree.step {d' : Dcache} {call : CacheCall} {ret : Option Nat} (tree : CacheTree d children kids)
    (step : cacheStep d call ret d') : ∃ kids', CacheTree d' (recordCall children (call, ret)) kids' := by
  cases call with
  | insert parent name namelen n =>
      obtain ⟨⟨inside, arg⟩, returned⟩ := step
      by_cases short : namelen < dcacheEntryNameLen
      · obtain ⟨d'', kids', entry, returned', inserted, _, named⟩ :=
          dcacheInsert_spec tree.shape inside (rooted_of_insert short returned) name short n
        rw [returned] at returned'
        cases returned'
        refine ⟨kids', ?_⟩
        rw [recordCall, ← named]
        apply tree.grown inserted
        · rw [named]
          exact arg.noNul
        · rw [named, List.length_take_of_le arg.inside]
          exact short
      · have long : namelen + 1 > dcacheEntryNameLen := by omega
        simp only [dcacheInsert, if_pos long] at returned
        cases returned
        exact ⟨kids, tree⟩
  | lookup parent name namelen =>
      obtain ⟨⟨inside, _⟩, returned⟩ := step
      obtain ⟨d'', kids', returns, shape, labels, _, members⟩ := dcacheLookup_spec tree.shape inside name namelen
      have same := Exec.Returns.unique (dcacheLookup_growing d parent name namelen) returned returns
      cases same
      exact ⟨kids', tree.turned shape labels members⟩

theorem CacheTree.childRings (tree : CacheTree d children kids) : ChildRings d children kids :=
  ⟨tree.shape.heads, tree.shape.rings, tree.shape.distinct, tree.members⟩

/-! ## Lookups -/

theorem CacheTree.kid (tree : CacheTree d children kids) {a k : Nat} (member : k ∈ kids a) {entry : DcacheEntry}
    (stored : d.entries[k]? = some entry) : ⟨a, k, entry.name⟩ ∈ children := by
  obtain ⟨child, old, rfl, rfl⟩ := (tree.members a k).mp member
  obtain ⟨n, labelled⟩ := tree.stored child old
  obtain ⟨_, stored', _, named⟩ := label_eq_some labelled
  cases stored.symm.trans stored'
  rwa [named]

def visitsAll (d : Dcache) (siblings : List Nat) (name : List UInt8) (namelen : Nat) : List Nat × Option Nat :=
  match Chain.search (hasName d name namelen) siblings with
  | some found => (found.before ++ [found.here], some found.here)
  | none => (siblings, none)

theorem visitsAll_found (siblings : List Nat) (name : List UInt8) (namelen : Nat) :
    (visitsAll d siblings name namelen).2 = firstNamed d siblings name namelen := by
  unfold visitsAll firstNamed
  cases Chain.search (hasName d name namelen) siblings with
  | none => rfl
  | some found => rfl

theorem visitsAll_prefix (siblings : List Nat) (name : List UInt8) (namelen : Nat) :
    (visitsAll d siblings name namelen).1 <+: siblings := by
  unfold visitsAll
  cases search : Chain.search (hasName d name namelen) siblings with
  | none => exact List.prefix_rfl
  | some found =>
      obtain ⟨split, _, _⟩ := Chain.search_eq_some.mp search
      exact ⟨found.after, by rw [split, List.append_assoc, List.singleton_append]⟩

theorem visits_search (tree : CacheTree d children kids) {a first : Nat} (head : (kids a).head? = some first)
    {name : List UInt8} {namelen : Nat} (arg : NameArg name namelen) :
    Exec.Returns (fun fuel => Exec.loop (siblingVisit d first name namelen) fuel ([], first))
      (visitsAll d (kids a) name namelen) := by
  obtain ⟨rest, listed⟩ := List.head?_eq_some_iff.mp head
  have returns := Chain.returns_scan (siblingVisit d first name namelen) (hasName d name namelen)
    (fun before k => (before, k)) (fun before k => (before ++ [k], some k)) (kids a, none) ?_
    (listed.trans (List.nil_append _).symm)
  · rw [← listed] at returns
    cases found : Chain.search (hasName d name namelen) (kids a) with
    | none => simpa [visitsAll, found] using returns
    | some f => simpa [visitsAll, found] using returns
  · intro before iter after split
    obtain ⟨entry, stored, link⟩ := tree.shape.next split head
    obtain ⟨noNul, short⟩ := tree.clean _ (tree.kid (show iter ∈ kids a by simp [split]) stored)
    simp only [siblingVisit, load_eq stored, Exec.ok_bind, nameReads_eq noNul short arg, hasName_stored stored]
    by_cases hit : nameMatches entry name namelen
    · simp [hit]
    · cases after with
      | nil => simp [hit, show entry.siblings = some first from link, split]
      | cons next after => simp [hit, link.1, link.2]

theorem dcacheLookupVisits_returns (tree : CacheTree d children kids) {parent found : Option Nat} {name : List UInt8}
    {namelen : Nat} {d' : Dcache} (inside : parent.getD 0 < d.entries.length) (arg : NameArg name namelen)
    (returns : Exec.Returns (dcacheLookup d parent name namelen) (found, d')) :
    Exec.Returns (dcacheLookupVisits d parent name namelen)
      ((visitsAll d (kids (parent.getD 0)) name namelen).1, found, d') := by
  have stored : d.entries[parent.getD 0]? = some d.entries[parent.getD 0] := List.getElem?_eq_getElem inside
  generalize d.entries[parent.getD 0] = above at stored
  have head := tree.shape.heads _ _ stored
  cases first : above.childs with
  | none =>
      have empty : kids (parent.getD 0) = [] := List.head?_eq_none_iff.mp (head.symm.trans first)
      obtain ⟨fuel, runs⟩ := returns
      refine ⟨fuel, ?_⟩
      simp only [dcacheLookup, load_eq stored, first, Exec.ok_bind] at runs
      cases runs
      simp [dcacheLookupVisits, load_eq stored, first, empty, visitsAll, Chain.search]
  | some first' =>
      obtain ⟨fuel, loops⟩ := siblings_search tree.shape (head.symm.trans first) name namelen
      obtain ⟨fuel', visits⟩ := visits_search tree (head.symm.trans first) arg
      have same := visitsAll_found (d := d) (kids (parent.getD 0)) name namelen
      have settled {result : Option Nat × Dcache} (runs : dcacheLookup d parent name namelen fuel = .ok result) :
          (found, d') = result :=
        Exec.Returns.unique (dcacheLookup_growing d parent name namelen) returns ⟨fuel, runs⟩
      refine ⟨fuel', ?_⟩
      cases finds : firstNamed d (kids (parent.getD 0)) name namelen with
      | none =>
          cases @settled (none, d) (by simp [dcacheLookup, load_eq stored, first, loops, finds])
          simp [dcacheLookupVisits, load_eq stored, first, visits, same, finds]
      | some k =>
          cases @settled (some k, d.store (parent.getD 0) { above with childs := some k })
            (by simp [dcacheLookup, load_eq stored, first, loops, finds])
          simp [dcacheLookupVisits, load_eq stored, first, visits, same, finds]

theorem CacheTree.looksUp (tree : CacheTree d children kids) {parent : Option Nat} {name : List UInt8} {namelen : Nat}
    (inside : parent.getD 0 < d.entries.length) (arg : NameArg name namelen) :
    ∃ visited found d', LooksUp d children kids parent name namelen visited found d' := by
  obtain ⟨d', _, returns, _⟩ := dcacheLookup_spec tree.shape inside name namelen
  have begins := visitsAll_prefix (d := d) (kids (parent.getD 0)) name namelen
  refine ⟨_, _, d', returns, dcacheLookupVisits_returns tree inside arg returns,
    begins.sublist.nodup (tree.shape.distinct _), fun k visited => begins.subset visited, ?_, ?_⟩
  · intro k found
    obtain ⟨member, entry, stored, hit⟩ := firstNamed_some found
    have child := tree.kid member stored
    rwa [(nameMatches_iff (tree.clean _ child).1).mp hit] at child
  · intro child member below named
    have kid : child.address ∈ kids (parent.getD 0) := (tree.members _ _).mpr ⟨child, member, below, rfl⟩
    obtain ⟨n, labelled⟩ := tree.stored child member
    obtain ⟨entry, stored, _, same⟩ := label_eq_some labelled
    have hit : nameMatches entry name namelen := by
      rw [nameMatches_iff (same ▸ (tree.clean child member).1), same, named]
    cases finds : firstNamed d (kids (parent.getD 0)) name namelen with
    | some k => exact ⟨k, rfl⟩
    | none =>
        have misses := Chain.search_eq_none.mp (Option.map_eq_none_iff.mp finds) child.address kid
        rw [hasName_stored stored] at misses
        exact absurd hit (of_decide_eq_false misses)

theorem dcache_tree {n : Nat} {history : List (CacheCall × Option Nat)} {d : Dcache}
    (run : Run cacheStep (dcacheInitRoot n) history d) :
    ∃ kids, ChildRings d (childrenAfter history) kids ∧
      ∀ parent name namelen, parent.getD 0 < d.entries.length → NameArg name namelen →
        ∃ visited found d', LooksUp d (childrenAfter history) kids parent name namelen visited found d' := by
  obtain ⟨kids, tree⟩ : ∃ kids, CacheTree d (childrenAfter history) kids := by
    refine run.follows recordCall (fun d children => ∃ kids, CacheTree d children kids) ?_ ⟨_, CacheTree.init n⟩
    rintro _ _ _ _ _ ⟨kids, tree⟩ step
    exact tree.step step
  exact ⟨kids, tree.childRings, fun _ _ _ inside arg => tree.looksUp inside arg⟩

-- The lookup finds the entry behind the first one, and makes it the first.
def siblingCalls : List (CacheCall × Option Nat) :=
  [(.insert none [97, 98] 2 7, some 1), (.insert none [99, 100] 2 9, some 2), (.insert none [101, 102] 2 11, some 3),
    (.lookup none [99, 100, 47, 103] 2, some 2)]

def threeChildren (first : Nat) : Dcache :=
  ⟨[⟨some first, none, 2, []⟩, ⟨none, some 2, 7, [97, 98]⟩, ⟨none, some 3, 9, [99, 100]⟩, ⟨none, some 1, 11, [101, 102]⟩]⟩

theorem dcache_tree_ab : Run cacheStep (dcacheInitRoot 2) siblingCalls (threeChildren 2) ∧
    ∃ kids visited, ChildRings (threeChildren 2) (childrenAfter siblingCalls) kids ∧
      LooksUp (threeChildren 2) (childrenAfter siblingCalls) kids none [97, 98, 47, 99] 2 visited (some 1)
        (threeChildren 1) := by
  have run : Run cacheStep (dcacheInitRoot 2) siblingCalls (threeChildren 2) :=
    .cons ⟨⟨by decide, by decide, by decide, by decide, by decide⟩, rfl⟩
      (.cons ⟨⟨by decide, by decide, by decide, by decide, by decide⟩, rfl⟩
        (.cons ⟨⟨by decide, by decide, by decide, by decide, by decide⟩, rfl⟩
          (.single ⟨⟨by decide, by decide, by decide, by decide, by decide⟩, 3, by decide⟩)))
  obtain ⟨kids, rings, looks⟩ := dcache_tree run
  obtain ⟨visited, found, d', looksUp⟩ :=
    looks none [97, 98, 47, 99] 2 (by decide) ⟨by decide, by decide, by decide, by decide⟩
  have last : Exec.Returns (dcacheLookup (threeChildren 2) none [97, 98, 47, 99] 2) (some 1, threeChildren 1) :=
    ⟨3, by decide⟩
  cases Exec.Returns.unique (dcacheLookup_growing ..) looksUp.returns last
  exact ⟨run, kids, visited, rings, looksUp⟩

end SampleFs.Proof.Fuse

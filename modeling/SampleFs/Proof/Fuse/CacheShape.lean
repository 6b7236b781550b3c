import Mathlib.Data.List.GetD
import Mathlib.Data.List.Nodup
import Mathlib.Logic.Function.Basic
import SampleFs.Lib.Chain
import SampleFs.Lib.Ring
import SampleFs.Fuse.Dcache

namespace SampleFs.Proof.Fuse
open Lib SampleFs.Fuse

def siblingOf (d : Dcache) (a : Nat) : Option Nat := (d.entries[a]?).bind DcacheEntry.siblings

def label (d : Dcache) (a : Nat) : Option (Nat × List UInt8) :=
  (d.entries[a]?).map fun entry => (entry.inode, entry.name)

theorem label_eq_some {d : Dcache} {a n : Nat} {name : List UInt8} (labelled : label d a = some (n, name)) :
    ∃ entry, d.entries[a]? = some entry ∧ entry.inode = n ∧ entry.name = name := by
  obtain ⟨entry, found, same⟩ := Option.map_eq_some_iff.mp labelled
  cases same
  exact ⟨entry, found, rfl, rfl⟩

theorem nameMatches_iff {entry : DcacheEntry} {name : List UInt8} {namelen : Nat} (noNul : 0 ∉ entry.name) :
    nameMatches entry name namelen ↔ entry.name = name.take namelen := by
  constructor
  · rintro ⟨same, zero⟩
    have whole : entry.name.length ≤ namelen := by
      by_contra more
      rw [List.getD_eq_getElem _ _ (by omega)] at zero
      exact noNul (zero ▸ List.getElem_mem _)
    rwa [List.take_of_length_le whole] at same
  · intro same
    refine ⟨by rw [same, List.take_take, Nat.min_self], List.getD_eq_default _ _ ?_⟩
    rw [same]
    exact List.length_take_le _ _

/-- The children of every entry form a ring of younger entries that belongs to it alone. -/
structure Shape (d : Dcache) (kids : Nat → List Nat) : Prop where
  heads : ∀ a entry, d.entries[a]? = some entry → entry.childs = (kids a).head?
  rings : ∀ a, Ring (siblingOf d) (kids a)
  distinct : ∀ a, (kids a).Nodup
  apart : ∀ a b k, k ∈ kids a → k ∈ kids b → a = b
  younger : ∀ a k, k ∈ kids a → a < k ∧ k < d.entries.length

theorem Shape.init (n : Nat) : Shape (dcacheInitRoot n) fun _ => [] where
  heads := by
    intro a entry found
    cases a with
    | zero =>
        cases found
        rfl
    | succ a => cases found
  rings := fun _ => trivial
  distinct := fun _ => List.nodup_nil
  apart := by
    intro a b k member
    cases member
  younger := by
    intro a k member
    cases member

variable {d : Dcache} {kids : Nat → List Nat}

theorem load_eq {a : Nat} {entry : DcacheEntry} (found : d.entries[a]? = some entry) :
    d.load (some a) = .ok entry := by
  simp only [Dcache.load, found]

/-! ## Lookup -/

theorem store_self {a : Nat} {old : DcacheEntry} (found : d.entries[a]? = some old)
    (entry : DcacheEntry) : (d.store a entry).entries[a]? = some entry :=
  List.getElem?_set_self (List.getElem?_eq_some_iff.mp found).1

theorem store_other {a b : Nat} (other : a ≠ b) (entry : DcacheEntry) :
    (d.store a entry).entries[b]? = d.entries[b]? :=
  List.getElem?_set_ne other

theorem store_keeps {β : Type} {a : Nat} {old entry : DcacheEntry} (f : DcacheEntry → Option β)
    (found : d.entries[a]? = some old) (same : f entry = f old) (b : Nat) :
    ((d.store a entry).entries[b]?).bind f = (d.entries[b]?).bind f := by
  by_cases here : a = b
  · subst here
    rw [store_self found, found]
    exact same
  · rw [store_other here]

theorem store_label {a : Nat} {old entry : DcacheEntry} (found : d.entries[a]? = some old)
    (same : (entry.inode, entry.name) = (old.inode, old.name)) : label (d.store a entry) = label d := by
  have kept := store_keeps (fun e => some (e.inode, e.name)) found (by rw [same])
  funext b
  rw [label, label, Option.map_eq_bind, Option.map_eq_bind]
  exact kept b

theorem store_childs {a : Nat} {above : DcacheEntry} (found : d.entries[a]? = some above)
    (childs : Option Nat) : siblingOf (d.store a { above with childs }) = siblingOf d ∧
      label (d.store a { above with childs }) = label d :=
  ⟨funext (store_keeps _ found rfl), store_label found rfl⟩

theorem Shape.headed (shape : Shape d kids) {a first : Nat}
    {above : DcacheEntry} (stored : d.entries[a]? = some above) (childs : above.childs = some first) :
    ∃ rest, kids a = first :: rest :=
  List.head?_eq_some_iff.mp ((shape.heads a above stored).symm.trans childs)

theorem mem_turned {kids : Nat → List Nat} {a k : Nat} {before after : List Nat}
    (split : kids a = before ++ k :: after) (b x : Nat) :
    x ∈ Function.update kids a (k :: (after ++ before)) b ↔ x ∈ kids b := by
  by_cases here : b = a
  · subst here
    rw [Function.update_self, split]
    simp only [List.mem_cons, List.mem_append]
    tauto
  · rw [Function.update_of_ne here]

theorem Shape.turn (shape : Shape d kids) {a k : Nat}
    {above : DcacheEntry} (found : d.entries[a]? = some above) {before after : List Nat}
    (split : kids a = before ++ k :: after) :
    Shape (d.store a { above with childs := some k }) (Function.update kids a (k :: (after ++ before))) := by
  have same := mem_turned split
  refine ⟨?_, ?_, ?_, ?_, ?_⟩
  · intro b entry stored
    by_cases here : b = a
    · subst here
      rw [store_self found] at stored
      cases stored
      rw [Function.update_self]
      rfl
    · rw [store_other (Ne.symm here)] at stored
      rw [Function.update_of_ne here]
      exact shape.heads b entry stored
  · intro b
    rw [(store_childs found _).1]
    by_cases here : b = a
    · subst here
      rw [Function.update_self]
      apply Ring.rotate
      rw [← split]
      exact shape.rings b
    · rw [Function.update_of_ne here]
      exact shape.rings b
  · intro b
    by_cases here : b = a
    · subst here
      rw [Function.update_self]
      have nodup := shape.distinct b
      rw [split] at nodup
      exact List.nodup_append_comm.mp nodup
    · rw [Function.update_of_ne here]
      exact shape.distinct b
  · intro b c x left right
    exact shape.apart b c x ((same b x).mp left) ((same c x).mp right)
  · intro b x member
    have := shape.younger b x ((same b x).mp member)
    simpa [Dcache.store] using this

theorem Shape.next (shape : Shape d kids) {a first iter : Nat}
    {before after : List Nat} (split : kids a = before ++ iter :: after) (head : (kids a).head? = some first) :
    ∃ entry, d.entries[iter]? = some entry ∧
      match after with
      | [] => entry.siblings = some first
      | next :: _ => entry.siblings = some next ∧ next ≠ first := by
  have bound : iter < d.entries.length := (shape.younger a iter (by simp [split])).2
  have found : d.entries[iter]? = some d.entries[iter] := List.getElem?_eq_getElem bound
  have turned : Ring (siblingOf d) (iter :: (after ++ before)) := by
    apply Ring.rotate
    rw [← split]
    exact shape.rings a
  have sibling : siblingOf d iter = d.entries[iter].siblings := by
    rw [siblingOf, found]
    rfl
  refine ⟨_, found, ?_⟩
  rw [← sibling]
  have nodup := shape.distinct a
  rw [split] at nodup head
  cases after with
  | nil =>
      cases before with
      | nil =>
          cases head
          exact turned
      | cons x before =>
          cases head
          exact turned.1
  | cons next after =>
      refine ⟨turned.1, ?_⟩
      intro same
      subst same
      cases before with
      | nil =>
          cases head
          simp at nodup
      | cons x before =>
          cases head
          simp at nodup

def hasName (d : Dcache) (name : List UInt8) (namelen k : Nat) : Bool :=
  (d.entries[k]?).any fun entry => decide (nameMatches entry name namelen)

theorem hasName_stored {k : Nat} {entry : DcacheEntry} (stored : d.entries[k]? = some entry)
    (name : List UInt8) (namelen : Nat) : hasName d name namelen k = decide (nameMatches entry name namelen) := by
  simp [hasName, stored]

def firstNamed (d : Dcache) (siblings : List Nat) (name : List UInt8) (namelen : Nat) : Option Nat :=
  (Chain.search (hasName d name namelen) siblings).map Chain.Found.here

theorem firstNamed_some {siblings : List Nat} {name : List UInt8} {namelen k : Nat}
    (found : firstNamed d siblings name namelen = some k) :
    k ∈ siblings ∧ ∃ entry, d.entries[k]? = some entry ∧ nameMatches entry name namelen := by
  obtain ⟨f, search, rfl⟩ := Option.map_eq_some_iff.mp found
  obtain ⟨split, hit, _⟩ := Chain.search_eq_some.mp search
  refine ⟨by simp [split], ?_⟩
  simpa [hasName, Option.any_eq_true] using hit

-- Once round the ring: the entries still to come shrink to nothing before the first one is met again.
theorem siblings_search (shape : Shape d kids) {a first : Nat} (head : (kids a).head? = some first)
    (name : List UInt8) (namelen : Nat) :
    Exec.Returns (fun fuel => Exec.loop (siblingPass d first name namelen) fuel first)
      (firstNamed d (kids a) name namelen) := by
  obtain ⟨rest, listed⟩ := List.head?_eq_some_iff.mp head
  have returns := Chain.returns_scan (siblingPass d first name namelen) (hasName d name namelen)
    (fun _ k => k) (fun _ k => some k) none ?_ (listed.trans (List.nil_append _).symm)
  · rw [firstNamed, listed]
    cases found : Chain.search (hasName d name namelen) (first :: rest) with
    | none => simpa [found] using returns
    | some f => simpa [found] using returns
  · intro before iter after split
    obtain ⟨entry, stored, link⟩ := shape.next split head
    rw [siblingPass, load_eq stored, Exec.ok_bind, hasName_stored stored]
    by_cases hit : nameMatches entry name namelen
    · simp [hit]
    · cases after with
      | nil => simp [hit, show entry.siblings = some first from link]
      | cons next after => simp [hit, link.1, link.2]

theorem dcacheLookup_spec (shape : Shape d kids) {parent : Option Nat}
    (inside : parent.getD 0 < d.entries.length) (name : List UInt8) (namelen : Nat) :
    ∃ d' kids', Exec.Returns (dcacheLookup d parent name namelen)
        (firstNamed d (kids (parent.getD 0)) name namelen, d') ∧
      Shape d' kids' ∧ label d' = label d ∧ d'.entries.length = d.entries.length ∧
      ∀ a k, k ∈ kids' a ↔ k ∈ kids a := by
  have stored : d.entries[parent.getD 0]? = some d.entries[parent.getD 0] := List.getElem?_eq_getElem inside
  generalize d.entries[parent.getD 0] = above at stored
  have head := shape.heads _ _ stored
  cases first : above.childs with
  | none =>
      have empty : kids (parent.getD 0) = [] := List.head?_eq_none_iff.mp (head.symm.trans first)
      refine ⟨d, kids, ⟨0, ?_⟩, shape, rfl, rfl, fun _ _ => Iff.rfl⟩
      simp [dcacheLookup, load_eq stored, first, empty, firstNamed, Chain.search]
  | some first' =>
      obtain ⟨fuel, loops⟩ := siblings_search shape (head.symm.trans first) name namelen
      cases found : firstNamed d (kids (parent.getD 0)) name namelen with
      | none =>
          refine ⟨d, kids, ⟨fuel, ?_⟩, shape, rfl, rfl, fun _ _ => Iff.rfl⟩
          simp [dcacheLookup, load_eq stored, first, loops, found]
      | some k =>
          obtain ⟨before, after, apart⟩ := List.append_of_mem (firstNamed_some found).1
          refine ⟨_, _, ⟨fuel, ?_⟩, shape.turn stored apart, (store_childs stored _).2,
            by simp [Dcache.store], mem_turned apart⟩
          simp [dcacheLookup, load_eq stored, first, loops, found]

theorem dcacheLookup_growing (d : Dcache) (parent : Option Nat) (name : List UInt8) (namelen : Nat) :
    Exec.Growing (dcacheLookup d parent name namelen) := by
  unfold dcacheLookup
  refine .bind (.const _) fun above => ?_
  cases above.childs with
  | none => exact .const _
  | some first =>
      refine .bind ?_ fun _ => .const _
      exact fun _ _ le => Exec.loop_below (fun _ => .refl _) le first

/-! ## Insertion -/

theorem Shape.kids_beyond (shape : Shape d kids) {a : Nat}
    (beyond : d.entries.length ≤ a) : kids a = [] := by
  apply List.eq_nil_iff_forall_not_mem.mpr
  intro k member
  have := shape.younger a k member
  omega

theorem Shape.grow {d d' : Dcache} {kids : Nat → List Nat} (shape : Shape d kids) {address : Nat}
    (rest : List Nat) (inside : address < d.entries.length)
    (size : d'.entries.length = d.entries.length + 1)
    (heads : ∀ a entry, d'.entries[a]? = some entry → entry.childs =
      if a = address then some d.entries.length else (d.entries[a]?).bind DcacheEntry.childs)
    (ring : Ring (siblingOf d') (d.entries.length :: rest)) (same : rest.Perm (kids address))
    (others : ∀ a k, a ≠ address → k ∈ kids a → siblingOf d' k = siblingOf d k) :
    Shape d' (Function.update kids address (d.entries.length :: rest)) ∧
      ∀ a k, k ∈ Function.update kids address (d.entries.length :: rest) a ↔
        k ∈ kids a ∨ a = address ∧ k = d.entries.length := by
  have members (a k : Nat) : k ∈ Function.update kids address (d.entries.length :: rest) a ↔
      k ∈ kids a ∨ a = address ∧ k = d.entries.length := by
    by_cases here : a = address
    · subst here
      rw [Function.update_self, List.mem_cons, same.mem_iff]
      tauto
    · rw [Function.update_of_ne here]
      tauto
  have old (a : Nat) : d.entries.length ∉ kids a := by
    intro member
    exact Nat.lt_irrefl _ (shape.younger a _ member).2
  refine ⟨⟨?_, ?_, ?_, ?_, ?_⟩, members⟩
  · intro a entry stored
    rw [heads a entry stored]
    by_cases here : a = address
    · subst here
      rw [if_pos rfl, Function.update_self]
      rfl
    · rw [if_neg here, Function.update_of_ne here]
      cases before : d.entries[a]? with
      | none => simp [shape.kids_beyond (List.getElem?_eq_none_iff.mp before)]
      | some entry => exact shape.heads a entry before
  · intro a
    by_cases here : a = address
    · subst here
      rw [Function.update_self]
      exact ring
    · rw [Function.update_of_ne here]
      exact (shape.rings a).congr fun k member => others a k here member
  · intro a
    by_cases here : a = address
    · subst here
      rw [Function.update_self, List.nodup_cons, same.mem_iff, same.nodup_iff]
      exact ⟨old a, shape.distinct a⟩
    · rw [Function.update_of_ne here]
      exact shape.distinct a
  · intro a b k left right
    rcases (members a k).mp left with first | ⟨rfl, rfl⟩
    · rcases (members b k).mp right with second | ⟨rfl, rfl⟩
      · exact shape.apart a b k first second
      · exact absurd first (old a)
    · rcases (members b _).mp right with second | ⟨rfl, _⟩
      · exact absurd second (old b)
      · rfl
  · intro a k member
    rcases (members a k).mp member with first | ⟨rfl, rfl⟩
    · have := shape.younger a k first
      omega
    · omega

structure Inserted (d d' : Dcache) (kids kids' : Nat → List Nat) (address : Nat) (entry : DcacheEntry) :
    Prop where
  shape : Shape d' kids'
  size : d'.entries.length = d.entries.length + 1
  members : ∀ a k, k ∈ kids' a ↔ k ∈ kids a ∨ a = address ∧ k = d.entries.length
  old : ∀ a, a < d.entries.length → label d' a = label d a
  new : label d' d.entries.length = some (entry.inode, entry.name)

def push (d : Dcache) (entry : DcacheEntry) : Dcache := ⟨d.entries ++ [entry]⟩

theorem push_size (d : Dcache) (entry : DcacheEntry) :
    (push d entry).entries.length = d.entries.length + 1 := by
  simp [push]

theorem push_new (d : Dcache) (entry : DcacheEntry) :
    (push d entry).entries[d.entries.length]? = some entry := by
  simp [push]

theorem push_old {a : Nat} (other : a ≠ d.entries.length) (entry : DcacheEntry) :
    (push d entry).entries[a]? = d.entries[a]? := by
  by_cases less : a < d.entries.length
  · exact List.getElem?_append_left less
  · rw [List.getElem?_eq_none (by rw [push_size]; omega), List.getElem?_eq_none (by omega)]

theorem push_childs {entry : DcacheEntry} (leaf : entry.childs = none) (a : Nat) :
    ((push d entry).entries[a]?).bind DcacheEntry.childs = (d.entries[a]?).bind DcacheEntry.childs := by
  by_cases new : a = d.entries.length
  · rw [new, push_new, List.getElem?_eq_none (Nat.le_refl _)]
    exact leaf
  · rw [push_old new]

theorem store_size (d : Dcache) (a : Nat) (entry : DcacheEntry) :
    (d.store a entry).entries.length = d.entries.length := by
  simp [Dcache.store]

theorem store_heads {d d' : Dcache} {address fresh : Nat} {above : DcacheEntry}
    (stored : d'.entries[address]? = some above)
    (same : ∀ a : Nat, (d'.entries[a]?).bind DcacheEntry.childs = (d.entries[a]?).bind DcacheEntry.childs)
    (a : Nat) (entry : DcacheEntry)
    (found : (d'.store address { above with childs := some fresh }).entries[a]? = some entry) :
    entry.childs = if a = address then some fresh else (d.entries[a]?).bind DcacheEntry.childs := by
  by_cases here : a = address
  · subst here
    rw [store_self stored] at found
    cases found
    rw [if_pos rfl]
  · rw [store_other (Ne.symm here)] at found
    rw [if_neg here, ← same, found]
    rfl

theorem insert_first (shape : Shape d kids) {address : Nat}
    {above : DcacheEntry} (entry : DcacheEntry) (stored : d.entries[address]? = some above)
    (childless : above.childs = none) (leaf : entry.childs = none) (alone : entry.siblings = some d.entries.length) :
    ∃ kids', Inserted d ((push d entry).store address { above with childs := some d.entries.length })
      kids kids' address entry := by
  have inside : address < d.entries.length := (List.getElem?_eq_some_iff.mp stored).1
  have pushed : (push d entry).entries[address]? = some above := (push_old (Nat.ne_of_lt inside) entry).trans stored
  obtain ⟨siblings, labels⟩ := store_childs pushed (some d.entries.length)
  have empty : kids address = [] := List.head?_eq_none_iff.mp ((shape.heads _ _ stored).symm.trans childless)
  have ring : Ring (siblingOf ((push d entry).store address { above with childs := some d.entries.length }))
      [d.entries.length] := by
    show siblingOf _ _ = some _
    rw [siblings, siblingOf, push_new]
    exact alone
  have others (a k : Nat) (_ : a ≠ address) (member : k ∈ kids a) :
      siblingOf ((push d entry).store address { above with childs := some d.entries.length }) k = siblingOf d k := by
    rw [siblings, siblingOf, siblingOf, push_old (Nat.ne_of_lt (shape.younger a k member).2)]
  obtain ⟨grown, members⟩ := shape.grow [] inside ((store_size _ _ _).trans (push_size d entry))
    (store_heads pushed (push_childs leaf)) ring (by rw [empty]) others
  refine ⟨_, grown, (store_size _ _ _).trans (push_size d entry), members, ?_, ?_⟩
  · intro a less
    rw [labels, label, label, push_old (Nat.ne_of_lt less)]
  · rw [labels, label, push_new]
    rfl

theorem insert_next (shape : Shape d kids) {address first : Nat}
    {above head : DcacheEntry} (entry : DcacheEntry) (stored : d.entries[address]? = some above)
    (childs : above.childs = some first) (headed : d.entries[first]? = some head)
    (leaf : entry.childs = none) (takes : entry.siblings = head.siblings) :
    ∃ kids', Inserted d (((push d entry).store first { head with siblings := some d.entries.length }).store address
      { above with childs := some d.entries.length }) kids kids' address entry := by
  obtain ⟨rest, listed⟩ := shape.headed stored childs
  obtain ⟨apart, inside⟩ := shape.younger address first (by simp [listed])
  have pushed : (push d entry).entries[first]? = some head := (push_old (Nat.ne_of_lt inside) entry).trans headed
  obtain ⟨d₂, made⟩ : ∃ d₂, d₂ = (push d entry).store first { head with siblings := some d.entries.length } := ⟨_, rfl⟩
  rw [← made]
  have size : d₂.entries.length = d.entries.length + 1 := by
    rw [made, store_size, push_size]
  have here : d₂.entries[first]? = some { head with siblings := some d.entries.length } := by
    rw [made, store_self pushed]
  have rest₂ (k : Nat) (other : k ≠ first) : d₂.entries[k]? = (push d entry).entries[k]? := by
    rw [made, store_other (Ne.symm other)]
  have fresh : d₂.entries[d.entries.length]? = some entry := by
    rw [rest₂ _ (Nat.ne_of_gt inside), push_new]
  have below : d₂.entries[address]? = some above := by
    rw [rest₂ _ (Nat.ne_of_lt apart), push_old (by omega), stored]
  have same (a : Nat) : (d₂.entries[a]?).bind DcacheEntry.childs = (d.entries[a]?).bind DcacheEntry.childs := by
    rw [made]
    refine Eq.trans (store_keeps _ pushed ?_ a) (push_childs leaf a)
    rfl
  obtain ⟨siblings, labels⟩ := store_childs below (some d.entries.length)
  have linked (k : Nat) (less : k < d.entries.length) (other : k ≠ first) : siblingOf d₂ k = siblingOf d k := by
    rw [siblingOf, siblingOf, rest₂ k other, push_old (Nat.ne_of_lt less)]
  have nodup := shape.distinct address
  have ring := shape.rings address
  rw [listed] at nodup ring
  have turned : Ring (siblingOf d₂) (d.entries.length :: (rest ++ [first])) := by
    apply ring.insert
    · rw [siblingOf, siblingOf, fresh, headed]
      exact takes
    · rw [siblingOf, here]
      rfl
    · intro k member
      have listed' : k ∈ kids address := by simp [listed, member]
      apply linked k (shape.younger address k listed').2
      intro equal
      exact (List.nodup_cons.mp nodup).1 (equal ▸ member)
  have others (a k : Nat) (other : a ≠ address) (member : k ∈ kids a) :
      siblingOf (d₂.store address { above with childs := some d.entries.length }) k = siblingOf d k := by
    rw [siblings]
    apply linked k (shape.younger a k member).2
    intro equal
    exact other (shape.apart a address k member (by simp [listed, equal]))
  obtain ⟨grown, members⟩ := shape.grow (rest ++ [first]) (Nat.lt_trans apart inside) ((store_size _ _ _).trans size)
    (store_heads below same) (by rw [siblings]; exact turned)
    (by rw [listed]; exact List.perm_append_singleton first rest) others
  refine ⟨_, grown, (store_size _ _ _).trans size, members, ?_, ?_⟩
  · intro a less
    have kept : label d₂ = label (push d entry) := made ▸ store_label pushed rfl
    rw [labels, kept, label, label, push_old (Nat.ne_of_lt less)]
  · rw [labels, label, fresh]
    rfl

theorem dcacheInsert_spec (shape : Shape d kids) {parent : Option Nat}
    (inside : parent.getD 0 < d.entries.length) (rooted : parent = none → ∀ root, d.entries[0]? = some root →
      root.inode ≠ 0) (name : List UInt8) {namelen : Nat} (short : namelen < dcacheEntryNameLen) (n : Nat) :
    ∃ d' kids' entry, dcacheInsert d parent name namelen n = .ok (some d.entries.length, d') ∧
      Inserted d d' kids kids' (parent.getD 0) entry ∧ entry.inode = n ∧ entry.name = name.take namelen := by
  have stored : d.entries[parent.getD 0]? = some d.entries[parent.getD 0] := List.getElem?_eq_getElem inside
  generalize d.entries[parent.getD 0] = above at stored
  have passes : parent ≠ none ∨ above.inode ≠ 0 := by
    cases parent with
    | none => exact .inr (rooted rfl above stored)
    | some address => exact .inl (by simp)
  rw [dcacheInsert, if_neg (by omega)]
  simp only [load_eq stored, Exec.ok_bind, Exec.check_pos _ passes]
  cases childs : above.childs with
  | none =>
      obtain ⟨kids', inserted⟩ := insert_first shape ⟨none, some d.entries.length, n, name.take namelen⟩
        stored childs rfl rfl
      exact ⟨_, kids', _, rfl, inserted, rfl, rfl⟩
  | some first =>
      have member : first ∈ kids (parent.getD 0) :=
        List.mem_of_mem_head? ((shape.heads _ _ stored).symm.trans childs)
      obtain ⟨head, headed⟩ : ∃ head, d.entries[first]? = some head :=
        ⟨_, List.getElem?_eq_getElem (shape.younger _ _ member).2⟩
      obtain ⟨kids', inserted⟩ := insert_next shape ⟨none, head.siblings, n, name.take namelen⟩
        stored childs headed rfl rfl
      refine ⟨_, kids', _, ?_, inserted, rfl, rfl⟩
      simp only [load_eq headed]
      rfl

end SampleFs.Proof.Fuse

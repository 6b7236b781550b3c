import SampleFs.Proof.Fuse.CacheTransparent

namespace SampleFs.Proof.Fuse
open Lib SampleFs.Fuse

/-!
## What holds of the cache while threads change it

Every entry belongs to the entry it was made for. An entry that can be reached has a sibling, and once
it has one it keeps having one.
-/

def childOf (d : Dcache) (a : Nat) : Option Nat := (d.entries[a]?).bind DcacheEntry.childs

structure Member (d : Dcache) (own : List Nat) (a k : Nat) : Prop where
  owner : own[k]? = some a
  inner : k ≠ 0
  linked : (siblingOf d k).isSome

structure CacheOwned (fs : Fs) (d : Dcache) (own : List Nat) : Prop where
  size : own.length = d.entries.length
  root : ∃ name, label d 0 = some (rootInodeN, name)
  inside : ∀ k a : Nat, own[k]? = some a → a < d.entries.length
  childs : ∀ a k, childOf d a = some k → Member d own a k
  siblings : ∀ k s, siblingOf d k = some s → ∃ a, own[k]? = some a ∧ Member d own a s
  truth : ∀ (k a dir : Nat) above n name, own[k]? = some a → k ≠ 0 → label d a = some (dir, above) →
    label d k = some (n, name) → 0 ∉ name ∧ Resolves fs dir name n

/-- What a thread relies on: nothing it knows of the cache goes away. -/
structure Grows (d : Dcache) (own : List Nat) (d' : Dcache) (own' : List Nat) : Prop where
  owners : ∀ k a : Nat, own[k]? = some a → own'[k]? = some a
  labels : ∀ a l, label d a = some l → label d' a = some l
  childs : ∀ a, (childOf d a).isSome → (childOf d' a).isSome
  siblings : ∀ k, (siblingOf d k).isSome → (siblingOf d' k).isSome

section
variable {fs : Fs} {d d' : Dcache} {own own' : List Nat} {a k : Nat}

theorem Grows.refl (d : Dcache) (own : List Nat) : Grows d own d own :=
  ⟨fun _ _ => id, fun _ _ => id, fun _ => id, fun _ => id⟩

theorem Member.grows (member : Member d own a k) (grows : Grows d own d' own') : Member d' own' a k :=
  ⟨grows.owners k a member.owner, member.inner, grows.siblings k member.linked⟩

theorem Points.grows {entry : Option Nat} {n : Nat} (points : Points d entry n) (grows : Grows d own d' own') :
    Points d' entry n := by
  obtain ⟨name, labelled⟩ := points
  exact ⟨name, grows.labels _ _ labelled⟩

theorem Points.stored {entry : Option Nat} {n : Nat} (points : Points d entry n) :
    ∃ above, d.entries[entry.getD 0]? = some above ∧ above.inode = n := by
  obtain ⟨name, labelled⟩ := points
  obtain ⟨above, stored, same, _⟩ := label_eq_some labelled
  exact ⟨above, stored, same⟩

theorem Member.stored (member : Member d own a k) : ∃ entry s, d.entries[k]? = some entry ∧ entry.siblings = some s := by
  obtain ⟨s, linked⟩ := Option.isSome_iff_exists.mp member.linked
  obtain ⟨entry, stored, same⟩ := Option.bind_eq_some_iff.mp linked
  exact ⟨entry, s, stored, same⟩

theorem childOf_stored {above : DcacheEntry} (stored : d.entries[a]? = some above) : childOf d a = above.childs := by
  rw [childOf, stored]
  rfl

theorem siblingOf_stored {entry : DcacheEntry} (stored : d.entries[k]? = some entry) : siblingOf d k = entry.siblings := by
  rw [siblingOf, stored]
  rfl

theorem CacheOwned.init (fs : Fs) : CacheOwned fs inodeInit [0] where
  size := rfl
  root := ⟨[], rfl⟩
  inside := by
    intro k a owner
    cases k with
    | zero =>
        cases owner
        decide
    | succ k => cases owner
  childs := by
    intro a k held
    cases a with
    | zero => cases held
    | succ a => cases held
  siblings := by
    intro k s held
    cases k with
    | zero => cases held
    | succ k => cases held
  truth := by
    intro k a dir above n name owner inner
    cases k with
    | zero => exact absurd rfl inner
    | succ k => cases owner

/-! ## The three writes -/

theorem childOf_store_childs {above : DcacheEntry} (stored : d.entries[a]? = some above) (childs : Option Nat) (b : Nat) :
    childOf (d.store a { above with childs }) b = if b = a then childs else childOf d b := by
  by_cases here : b = a
  · subst here
    rw [if_pos rfl, childOf_stored (store_self stored _)]
  · rw [if_neg here, childOf, childOf, store_other (Ne.symm here)]

theorem siblingOf_store_siblings {entry : DcacheEntry} (stored : d.entries[k]? = some entry) (siblings : Option Nat)
    (j : Nat) : siblingOf (d.store k { entry with siblings }) j = if j = k then siblings else siblingOf d j := by
  by_cases here : j = k
  · subst here
    rw [if_pos rfl, siblingOf_stored (store_self stored _)]
  · rw [if_neg here, siblingOf, siblingOf, store_other (Ne.symm here)]

theorem CacheOwned.setChilds (owned : CacheOwned fs d own) {above : DcacheEntry} (stored : d.entries[a]? = some above)
    (member : Member d own a k) :
    CacheOwned fs (d.store a { above with childs := some k }) own ∧
      Grows d own (d.store a { above with childs := some k }) own := by
  obtain ⟨siblings, labels⟩ := store_childs stored (some k)
  have moved : ∀ b j, Member d own b j → Member (d.store a { above with childs := some k }) own b j := by
    intro b j known
    exact ⟨known.owner, known.inner, by rw [siblings]; exact known.linked⟩
  refine ⟨⟨?_, ?_, ?_, ?_, ?_, ?_⟩, ⟨fun _ _ => id, ?_, ?_, ?_⟩⟩
  · rw [store_size]
    exact owned.size
  · rw [labels]
    exact owned.root
  · rw [store_size]
    exact owned.inside
  · intro b j held
    rw [childOf_store_childs stored] at held
    split at held
    next here =>
      cases held
      rw [here]
      exact moved a k member
    next => exact moved b j (owned.childs b j held)
  · intro j s held
    rw [siblings] at held
    obtain ⟨b, owner, known⟩ := owned.siblings j s held
    exact ⟨b, owner, moved b s known⟩
  · rw [labels]
    exact owned.truth
  · rw [labels]
    exact fun _ _ => id
  · intro b held
    rw [childOf_store_childs stored]
    split
    next => rfl
    next => exact held
  · rw [siblings]
    exact fun _ => id

/-- Linking an entry to itself or to one that is linked already, under the same owner. -/
theorem CacheOwned.setSiblings (owned : CacheOwned fs d own) {entry : DcacheEntry} {s : Nat}
    (stored : d.entries[k]? = some entry) (owner : own[k]? = some a) (inner : k ≠ 0)
    (onward : s = k ∨ Member d own a s) :
    CacheOwned fs (d.store k { entry with siblings := some s }) own ∧
      Grows d own (d.store k { entry with siblings := some s }) own ∧
      Member (d.store k { entry with siblings := some s }) own a k := by
  have labels : label (d.store k { entry with siblings := some s }) = label d := store_label stored rfl
  have childs : childOf (d.store k { entry with siblings := some s }) = childOf d := funext (store_keeps _ stored rfl)
  have linked : ∀ j, (siblingOf d j).isSome → (siblingOf (d.store k { entry with siblings := some s }) j).isSome := by
    intro j some
    rw [siblingOf_store_siblings stored]
    split
    · rfl
    · exact some
  have moved : ∀ b j, Member d own b j → Member (d.store k { entry with siblings := some s }) own b j :=
    fun b j known => ⟨known.owner, known.inner, linked j known.linked⟩
  have self : Member (d.store k { entry with siblings := some s }) own a k := by
    refine ⟨owner, inner, ?_⟩
    rw [siblingOf_store_siblings stored, if_pos rfl]
    rfl
  refine ⟨⟨?_, ?_, ?_, ?_, ?_, ?_⟩, ⟨fun _ _ => id, ?_, ?_, linked⟩, self⟩
  · rw [store_size]
    exact owned.size
  · rw [labels]
    exact owned.root
  · rw [store_size]
    exact owned.inside
  · intro b j held
    rw [childs] at held
    exact moved b j (owned.childs b j held)
  · intro j t held
    rw [siblingOf_store_siblings stored] at held
    split at held
    next here =>
      cases held
      subst here
      rcases onward with rfl | known
      · exact ⟨a, owner, self⟩
      · exact ⟨a, owner, moved a s known⟩
    next =>
      obtain ⟨b, owner', known⟩ := owned.siblings j t held
      exact ⟨b, owner', moved b t known⟩
  · rw [labels]
    exact owned.truth
  · rw [labels]
    exact fun _ _ => id
  · rw [childs]
    exact fun _ => id

theorem CacheOwned.alloc (owned : CacheOwned fs d own) {dir n : Nat} {above name : List UInt8}
    (parent : label d a = some (dir, above)) (noNul : 0 ∉ name) (resolves : Resolves fs dir name n) :
    CacheOwned fs (push d ⟨none, none, n, name⟩) (own ++ [a]) ∧
      Grows d own (push d ⟨none, none, n, name⟩) (own ++ [a]) := by
  obtain ⟨stored, found, _⟩ := label_eq_some parent
  have less : a < d.entries.length := (List.getElem?_eq_some_iff.mp found).1
  have labels : ∀ b l, label d b = some l → label (push d ⟨none, none, n, name⟩) b = some l := by
    intro b l labelled
    obtain ⟨entry, held, same⟩ := Option.map_eq_some_iff.mp labelled
    have other : b ≠ d.entries.length := ((List.getElem?_eq_some_iff.mp held).1).ne
    rw [label, push_old other, held]
    exact congrArg some same
  have older : ∀ b l, b < d.entries.length → label (push d ⟨none, none, n, name⟩) b = some l → label d b = some l := by
    intro b l inside labelled
    rwa [label, push_old inside.ne] at labelled
  have childs : ∀ b, childOf (push d ⟨none, none, n, name⟩) b = childOf d b := push_childs rfl
  have siblings : ∀ k, siblingOf (push d ⟨none, none, n, name⟩) k = siblingOf d k := by
    intro k
    by_cases here : k = d.entries.length
    · subst here
      rw [siblingOf_stored (push_new d _), siblingOf, List.getElem?_eq_none (Nat.le_refl _)]
      rfl
    · rw [siblingOf, siblingOf, push_old here]
  have owners : ∀ k b : Nat, own[k]? = some b → (own ++ [a])[k]? = some b := by
    intro k b owner
    rw [List.getElem?_append_left (List.getElem?_eq_some_iff.mp owner).1]
    exact owner
  have owners' : ∀ k b : Nat, (own ++ [a])[k]? = some b → own[k]? = some b ∨ k = d.entries.length ∧ b = a := by
    intro k b owner
    rcases Nat.lt_trichotomy k own.length with less | same | more
    · exact .inl (by rwa [List.getElem?_append_left less] at owner)
    · subst same
      rw [List.getElem?_append_right (Nat.le_refl _), Nat.sub_self] at owner
      exact .inr ⟨owned.size, (Option.some.inj owner).symm⟩
    · rw [List.getElem?_eq_none (by rw [List.length_append, List.length_singleton]; omega)] at owner
      cases owner
  have moved : ∀ b j, Member d own b j → Member (push d ⟨none, none, n, name⟩) (own ++ [a]) b j :=
    fun b j known => ⟨owners j b known.owner, known.inner, by rw [siblings]; exact known.linked⟩
  refine ⟨⟨?_, ?_, ?_, ?_, ?_, ?_⟩, ⟨owners, labels, ?_, ?_⟩⟩
  · rw [push_size, List.length_append, owned.size]
    rfl
  · obtain ⟨root, labelled⟩ := owned.root
    exact ⟨root, labels 0 _ labelled⟩
  · intro k b owner
    rw [push_size]
    rcases owners' k b owner with old | ⟨_, rfl⟩
    · exact Nat.lt_succ_of_lt (owned.inside k b old)
    · exact Nat.lt_succ_of_lt less
  · intro b j held
    rw [childs] at held
    exact moved b j (owned.childs b j held)
  · intro j s held
    rw [siblings] at held
    obtain ⟨b, owner, known⟩ := owned.siblings j s held
    exact ⟨b, owners j b owner, moved b s known⟩
  · intro k b dir' above' n' name' owner inner left right
    rcases owners' k b owner with old | ⟨rfl, rfl⟩
    · have young : k < d.entries.length := by
        rw [← owned.size]
        exact (List.getElem?_eq_some_iff.mp old).1
      exact owned.truth k b dir' above' n' name' old inner (older b _ (owned.inside k b old) left) (older k _ young right)
    · have same := (older b _ less left).symm.trans parent
      cases same
      rw [label, push_new] at right
      cases right
      exact ⟨noNul, resolves⟩
  · intro b
    rw [childs]
    exact id
  · intro k
    rw [siblings]
    exact id

end

end SampleFs.Proof.Fuse

import SampleFs.Lib.Exec

namespace SampleFs.Fuse
open Lib

def dcacheEntryNameLen : Nat := 40

-- `name` is what stands before the terminating NUL.
structure DcacheEntry where
  childs : Option Nat
  siblings : Option Nat
  inode : Nat
  name : List UInt8
deriving DecidableEq, Repr

/-- The entries by address. The static `root` has address 0, and every allocation takes the next one. -/
structure Dcache where
  entries : List DcacheEntry
deriving DecidableEq, Repr

def dcacheInitRoot (n : Nat) : Dcache := ⟨[⟨none, none, n, []⟩]⟩

namespace Dcache

def load (d : Dcache) (address : Option Nat) : Exec Fault DcacheEntry :=
  match address with
  | none => .fail .nullPointer
  | some address =>
      match d.entries[address]? with
      | some entry => .ok entry
      | none => .fail .outOfBounds

def store (d : Dcache) (address : Nat) (entry : DcacheEntry) : Dcache := ⟨d.entries.set address entry⟩

end Dcache

def dcacheInsert (d : Dcache) (parent : Option Nat) (name : List UInt8) (namelen n : Nat) :
    Exec Fault (Option Nat × Dcache) :=
  if namelen + 1 > dcacheEntryNameLen then return (none, d)
  else do
    let address := parent.getD 0
    let above ← d.load address
    Exec.check (parent ≠ none ∨ above.inode ≠ 0) .assertFailed
    let fresh := d.entries.length
    match above.childs with
    | none =>
        let d : Dcache := ⟨d.entries ++ [⟨none, some fresh, n, name.take namelen⟩]⟩
        return (some fresh, d.store address { above with childs := some fresh })
    | some first => do
        let head ← d.load first
        let d : Dcache := ⟨d.entries ++ [⟨none, head.siblings, n, name.take namelen⟩]⟩
        let d := d.store first { head with siblings := some fresh }
        return (some fresh, d.store address { above with childs := some fresh })

def nameMatches (entry : DcacheEntry) (name : List UInt8) (namelen : Nat) : Prop :=
  entry.name.take namelen = name.take namelen ∧ entry.name.getD namelen 0 = 0

instance (entry : DcacheEntry) (name : List UInt8) (namelen : Nat) :
    Decidable (nameMatches entry name namelen) :=
  inferInstanceAs (Decidable (_ ∧ _))

def siblingPass (d : Dcache) (first : Nat) (name : List UInt8) (namelen iter : Nat) :
    Exec Fault (Pass Nat (Option Nat)) := do
  let entry ← d.load iter
  if nameMatches entry name namelen then return .done (some iter)
  else
    match entry.siblings with
    | none => .fail .nullPointer
    | some next => return if next = first then .done none else .again next

def dcacheLookup (d : Dcache) (parent : Option Nat) (name : List UInt8) (namelen fuel : Nat) :
    Exec Fault (Option Nat × Dcache) := do
  let address := parent.getD 0
  let above ← d.load address
  match above.childs with
  | none => return (none, d)
  | some first =>
      match ← Exec.loop (siblingPass d first name namelen) fuel first with
      | none => return (none, d)
      | some iter => return (some iter, d.store address { above with childs := some iter })

/-! ## The bytes that a lookup reads -/

-- `calloc` leaves zeros behind the copied name
def DcacheEntry.nameArray (entry : DcacheEntry) : List UInt8 :=
  entry.name ++ List.replicate (dcacheEntryNameLen - entry.name.length) 0

/-- Whether `strncmp` returns zero. It stops at the first difference and behind a common NUL. -/
def strncmpReads : List UInt8 → List UInt8 → Nat → Exec Fault Bool
  | _, _, 0 => .ok true
  | x :: a, y :: b, n + 1 =>
      if x ≠ y then .ok false else if x = 0 then .ok true else strncmpReads a b n
  | _, _, _ + 1 => .fail .outOfBounds

def nameReads (entry : DcacheEntry) (name : List UInt8) (namelen : Nat) : Exec Fault Bool := do
  if ← strncmpReads entry.nameArray name namelen then
    match entry.nameArray[namelen]? with
    | some byte => return decide (byte = 0)
    | none => .fail .outOfBounds
  else return false

def siblingVisit (d : Dcache) (first : Nat) (name : List UInt8) (namelen : Nat) (s : List Nat × Nat) :
    Exec Fault (Pass (List Nat × Nat) (List Nat × Option Nat)) := do
  let (visited, iter) := s
  let entry ← d.load iter
  if ← nameReads entry name namelen then return .done (visited ++ [iter], some iter)
  else
    match entry.siblings with
    | none => .fail .nullPointer
    | some next =>
        return if next = first then .done (visited ++ [iter], none) else .again (visited ++ [iter], next)

/-- `dcache_lookup` byte by byte, with the entries it visits. -/
def dcacheLookupVisits (d : Dcache) (parent : Option Nat) (name : List UInt8) (namelen fuel : Nat) :
    Exec Fault (List Nat × Option Nat × Dcache) := do
  let address := parent.getD 0
  let above ← d.load address
  match above.childs with
  | none => return ([], none, d)
  | some first =>
      let (visited, found) ← Exec.loop (siblingVisit d first name namelen) fuel ([], first)
      match found with
      | none => return (visited, none, d)
      | some iter => return (visited, some iter, d.store address { above with childs := some iter })

def dcacheGetInode (d : Dcache) (entry : Option Nat) : Exec Fault Nat := do
  return (← d.load (entry.getD 0)).inode

end SampleFs.Fuse

import SampleFs.Fuse.FuseMain
import SampleFs.Proof.Fuse.PathResolution
import SampleFs.Proof.Fuse.Readlink

/-!
# What a mount shows

An image holds a tree of nodes by inode number. `answer` says what every request is to be told about
that tree, without a disk, a cache or a buffer.
-/

namespace SampleFs.Proof.Fuse
open Lib SampleFs.Fuse

/-- A name in a directory. Listing goes on behind it at `cookie`. -/
structure Item where
  name : List UInt8
  cookie : Nat
  inode : Nat
deriving DecidableEq, Repr

inductive Content where
  | directory (items : List Item)
  | regular (bytes : List UInt8)
  | link (target : List UInt8)
  | special
deriving DecidableEq, Repr

structure Node where
  stat : Stat
  content : Content
deriving DecidableEq, Repr

abbrev FileTree := Nat → Option Node

def child (items : List Item) (name : List UInt8) : Option Nat :=
  (items.find? fun item => item.name = name).map Item.inode

def Item.filled (item : Item) : Filled := ⟨item.name, item.cookie⟩

namespace FileTree
variable (tree : FileTree)

def lookup : (dir : Nat) → (names : List (List UInt8)) → Option Nat
  | dir, [] => some dir
  | dir, name :: rest =>
      match tree dir with
      | some ⟨_, .directory items⟩ =>
          match child items name with
          | some n => lookup n rest
          | none => none
      | _ => none

/-- The names are looked for in directories only. -/
def ThroughDirs : (dir : Nat) → (names : List (List UInt8)) → Prop
  | _, [] => True
  | dir, name :: rest => ∃ stat items, tree dir = some ⟨stat, .directory items⟩ ∧
      ∀ n, child items name = some n → ThroughDirs n rest

def resolve (path : List UInt8) : Option Nat := tree.lookup rootInodeN (components path)

def named (path : List UInt8) : Option Node := tree.resolve path >>= tree

/-! ## Answers -/

def nodeStat : Option Node → Reply
  | some node => .stat 0 node.stat
  | none => .stat (-enoent) .zero

def nodeNames (offset : Nat) (room : Option Nat) : Option Node → Reply
  | some ⟨_, .directory items⟩ =>
      .names 0 (accepted room 0 ((items.filter fun item => offset < item.cookie).map Item.filled))
  | _ => .names (-enoent) []

def nodeData (size offset : Nat) : Option Node → Reply
  | some ⟨_, .regular bytes⟩ => .data ((bytes.drop offset).take size).length ((bytes.drop offset).take size)
  | _ => .data (-enoent) []

def nodeTarget : Option Node → Reply
  | some ⟨_, .link target⟩ => .target 0 target
  | _ => .target (-einval) []

-- Opening a path that names nothing succeeds, and its reads find nothing.
def answer (files : List Nat) : Request → Reply × List Nat
  | .getattr path => (nodeStat (tree.named path), files)
  | .readdir path offset room => (nodeNames offset room (tree.named path), files)
  | .open path flags =>
      if flags % 4 ≠ 0 then (.opened (-eacces), files)
      else (.opened 0, files ++ [(tree.resolve path).getD 0])
  | .read file size offset => (nodeData size offset.toNat (files[file]? >>= tree), files)
  | .readlink path _ => (nodeTarget (tree.named path), files)

/-! ## Requests -/

/-- The kernel looks names up one by one, and goes on in directories only. -/
structure KernelPath (path : List UInt8) : Prop where
  absolute : path.getD 0 0 = slash
  fits : PathFits path
  dirs : tree.ThroughDirs rootInodeN (components path)

def Cookie (offset : Nat) (node : Node) : Prop :=
  ∃ items, node.content = .directory items ∧ (offset = 0 ∨ ∃ item ∈ items, item.cookie = offset)

def Allowed (bufsize : Nat) (files : List Nat) : Request → Prop
  | .getattr path => tree.KernelPath path
  | .readdir path offset _ => tree.KernelPath path ∧ ∀ node, tree.named path = some node → Cookie offset node
  | .open path _ => tree.KernelPath path
  | .read file size offset => size ≤ preadMax ∧ 0 ≤ offset ∧ offset < 2 ^ 63 ∧ ∃ fh, files[file]? = some fh ∧
      ∀ node, tree fh = some node → ∃ bytes, node.content = .regular bytes
  | .readlink path buf => tree.KernelPath path ∧ (tree.named path).isSome ∧ buf.length = bufsize

end FileTree

/-! ## Images -/

/-- The live entries, each with the offset behind it. -/
def items : (offset : Nat) → (entries : List Dirent) → List Item
  | _, [] => []
  | offset, e :: rest =>
      if e.Live then ⟨e.name, offset + e.recLen, e.inode⟩ :: items (offset + e.recLen) rest
      else items (offset + e.recLen) rest

/-- How an inode has to hold a node for the code to find all of it. -/
inductive StoredAs (fs : Fs) (bufsize n : Nat) (inode : Inode) : Content → Prop
  | directory {layout : Layout} {entries : List Dirent} (dir : DirectoryAt fs inode layout n entries)
      (small : inode.size < 2 ^ 32) (printable : Printable entries) (short : ShortNames entries) :
      StoredAs fs bufsize n inode (.directory (items 0 entries))
  | regular {layout : Layout} (readable : Readable fs inode layout) (small : inode.size ≤ 2 ^ 32)
      (mapped : ∀ lblock, lblock < fs.super.bytes2Blocks inode.size → (layout.pblock fs inode lblock).isSome)
      (other : inode.isLnk = false) :
      StoredAs fs bufsize n inode (.regular (fileBytes fs inode layout 0 inode.size))
  | link {layout : Layout} {target : List UInt8} (link : LinkAt fs inode layout target)
      (room : target.length < bufsize) (kept : TargetKept fs inode layout target bufsize) :
      StoredAs fs bufsize n inode (.link target)
  | special (other : inode.isLnk = false) : StoredAs fs bufsize n inode .special

/-- The number in a field of an inode record, at its offset in the format. -/
def recordField (raw : List UInt8) (pos width : Nat) : Nat := littleEndian ((raw.drop pos).take width)

/-- The attributes of a file, as the fields of its record give them, without the three write permissions. -/
structure Describes (raw : List UInt8) (stat : Stat) : Prop where
  mode : ∀ i, stat.mode.testBit i = ((recordField raw 0 2).testBit i && i ≠ 1 && i ≠ 4 && i ≠ 7)
  uid : stat.uid = recordField raw 2 2
  size : stat.size = toSigned 64 (recordField raw 4 4 + 2 ^ 32 * recordField raw 108 4)
  atime : stat.atime = recordField raw 8 4
  ctime : stat.ctime = recordField raw 12 4
  mtime : stat.mtime = recordField raw 16 4
  gid : stat.gid = recordField raw 24 2
  nlink : stat.nlink = recordField raw 26 2
  blocks : stat.blocks = recordField raw 28 4

structure NodeAt (fs : Fs) (bufsize n : Nat) (node : Node) (inode : Inode) (raw : List UInt8) : Prop where
  record : inodeRecordOf fs n = .ok (some raw)
  decoded : decodeInode raw = .ok inode
  stat : Describes raw node.stat
  content : StoredAs fs bufsize n inode node.content

/-- Every node is stored, every name leads to a node, and the names of directories fit in a cache entry. -/
structure Stores (fs : Fs) (bufsize : Nat) (tree : FileTree) : Prop where
  root : (tree rootInodeN).isSome
  node : ∀ n node, tree n = some node → ∃ inode raw, NodeAt fs bufsize n node inode raw
  closed : ∀ dir stat items item, tree dir = some ⟨stat, .directory items⟩ → item ∈ items →
    (tree item.inode).isSome
  short : ∀ dir stat items item stat' items', tree dir = some ⟨stat, .directory items⟩ → item ∈ items →
    tree item.inode = some ⟨stat', .directory items'⟩ → item.name.length < dcacheEntryNameLen

/-! ## Items and entries -/

theorem child_items (offset : Nat) (entries : List Dirent) (name : List UInt8) :
    child (items offset entries) name = findLive entries name := by
  induction entries generalizing offset with
  | nil => rfl
  | cons e rest ih =>
      rw [items, findLive_cons]
      by_cases live : e.Live
      · rw [if_pos live, child]
        by_cases same : e.name = name
        · rw [List.find?_cons_of_pos (by simpa using same), if_pos ⟨live, same⟩]
          rfl
        · rw [List.find?_cons_of_neg (by simpa using same), if_neg fun both => same both.2]
          exact ih _
      · rw [if_neg live, if_neg fun both => live both.1]
        exact ih _

theorem items_filled (offset : Nat) (entries : List Dirent) :
    (items offset entries).map Item.filled = listing offset entries := by
  induction entries generalizing offset with
  | nil => rfl
  | cons e rest ih =>
      rw [items, listing]
      by_cases live : e.Live
      · rw [if_pos live, if_pos live, List.map_cons, ih]
        rfl
      · rw [if_neg live, if_neg live, ih]

theorem child_mem {list : List Item} {name : List UInt8} {n : Nat} (found : child list name = some n) :
    ∃ item ∈ list, item.name = name ∧ item.inode = n := by
  obtain ⟨item, stops, same⟩ := Option.map_eq_some_iff.mp found
  exact ⟨item, List.mem_of_find?_eq_some stops, by simpa using List.find?_some stops, same⟩

section
variable {fs : Fs} {inode : Inode} {layout : Layout} {offset : Nat} {entries : List Dirent}

theorem EntriesFrom.cookies (chain : EntriesFrom fs inode layout offset entries) :
    ∀ item ∈ items offset entries, offset < item.cookie := by
  induction entries generalizing offset with
  | nil => simp [items]
  | cons e rest ih =>
      obtain ⟨_, entry, later⟩ := chain
      have positive := entry.positive
      have behind : ∀ item ∈ items (offset + e.recLen) rest, offset < item.cookie := by
        intro item member
        have bound := ih later item member
        omega
      rw [items]
      by_cases live : e.Live
      · rw [if_pos live]
        exact List.forall_mem_cons.mpr ⟨by simp only; omega, behind⟩
      · rw [if_neg live]
        exact behind

/-- Listing from a cookie goes on with the entries behind it. -/
theorem EntriesFrom.from_cookie (chain : EntriesFrom fs inode layout offset entries) {cookie : Nat}
    (known : cookie = offset ∨ ∃ item ∈ items offset entries, item.cookie = cookie) :
    ∃ later, EntriesFrom fs inode layout cookie later ∧ later <:+ entries ∧
      items cookie later = (items offset entries).filter fun item => cookie < item.cookie := by
  induction entries generalizing offset with
  | nil =>
      obtain rfl : cookie = offset := by simpa [items] using known
      exact ⟨[], chain, List.suffix_rfl, rfl⟩
  | cons e rest ih =>
      by_cases start : cookie = offset
      · subst start
        refine ⟨e :: rest, chain, List.suffix_rfl, (List.filter_eq_self.mpr ?_).symm⟩
        intro item member
        exact decide_eq_true (chain.cookies item member)
      · obtain ⟨_, entry, next⟩ := chain
        have after : cookie = offset + e.recLen ∨
            ∃ item ∈ items (offset + e.recLen) rest, item.cookie = cookie := by
          obtain ⟨item, member, same⟩ := known.resolve_left start
          rw [items] at member
          by_cases live : e.Live
          · rw [if_pos live] at member
            rcases List.mem_cons.mp member with rfl | later
            · exact .inl same.symm
            · exact .inr ⟨item, later, same⟩
          · rw [if_neg live] at member
            exact .inr ⟨item, member, same⟩
        obtain ⟨later, chain', suffix, lists⟩ := ih next after
        have bound : offset + e.recLen ≤ cookie := by
          rcases after with rfl | ⟨item, member, rfl⟩
          · exact Nat.le_refl _
          · exact (next.cookies item member).le
        refine ⟨later, chain', suffix.trans (List.suffix_cons e rest), ?_⟩
        rw [lists, items]
        by_cases live : e.Live
        · rw [if_pos live, List.filter_cons_of_neg (by simpa using bound)]
        · rw [if_neg live]

end

end SampleFs.Proof.Fuse

import SampleFs.Base.CHash
import SampleFs.Base.Hashmap
import SampleFs.Base.Utils
import SampleFs.Chunkserver.Chunk
import SampleFs.Lib.Bytes

/-!
# `chunkserver/chunk_cache.c`

`chunk_cache_load` goes over the entries of the directory, takes some of them for chunks and then
fills a cache with these; the cache is a `c_hashmap` with the callbacks of this file.
-/

namespace SampleFs.Chunkserver
open Lib Base

def vectorCount : Nat := 65535

structure Stat where
  isReg : Bool
  size : Nat
deriving DecidableEq, Repr

structure LoadedChunk where
  chunk : Chunk OpenFile
  total : Nat

-- The buffer has 256 bytes; behind a root of more than 256 the room `256 - root_sz` wraps.
def entryPath (root name : List UInt8) : Exec Fault (List UInt8) :=
  match root.getLast? with
  | none => .fail .outOfBounds
  | some last =>
      let start := if last = 47 then root else root ++ [47]
      if start.length ≤ 256 then .ok (start.take 255 ++ name.take (255 - start.length))
      else .fail .outOfBounds

def isDots (name : List UInt8) : Bool := decide (name = [46] ∨ name = [46, 46])

section
variable (opens : List UInt8 → Bool) (dir : Directory) (root : List UInt8) (lstat : List UInt8 → Option Stat)

-- `none` is an entry that is passed over.
def chunkEntry (name : List UInt8) : Exec Fault (Option LoadedChunk) :=
  if isDots name then .ok none
  else do
    let path ← entryPath root name
    match lstat path with
    | none => return none
    | some st =>
        if st.isReg && isDigit name name.length then
          -- `chunk_alloc` returns `NULL` where `chunk_init` fails, and the size is stored through it
          match ← chunkInit opens dir (atoi name) with
          | none => .fail .nullPointer
          | some chunk => return some ⟨chunk, st.size⟩
        else return none

def loadEntry (vector : List LoadedChunk) (name : List UInt8) : Exec Fault (List LoadedChunk) := do
  match ← chunkEntry opens dir root lstat name with
  | none => return vector
  | some loaded => do
      Exec.check (vector.length < vectorCount) .outOfBounds
      return vector ++ [loaded]

def chunkCacheLoad (names : List (List UInt8)) : Exec Fault (List LoadedChunk) :=
  names.foldlM (loadEntry opens dir root lstat) []

end

/-! ## The cache -/

-- Plain `char` is taken as signed here.
def hashmapHashCb (k : List UInt8) (sz : Nat) : UInt32 := PlainChar.signed.cHashFnv1a_64 (k.take sz)

def hashmapKeyCompareCb (k1 k2 : List UInt8) (_len : Nat) : Int :=
  let key1 := toSigned 32 (littleEndian (k1.take 4))
  let key2 := toSigned 32 (littleEndian (k2.take 4))
  if key1 = key2 then 1 else 0

structure ChunkCache where
  cache : Option CHashmap
  chunks : List (Option LoadedChunk)

-- `max_count` is a `uint32_t`
def chunkCacheNew (maxCount : Nat) : ChunkCache :=
  { cache := cHashmapAlloc (maxCount % 2 ^ 32) hashmapHashCb hashmapKeyCompareCb
    chunks := List.replicate (maxCount % 2 ^ 32) none }

def chunkCacheRemove (cc : Option ChunkCache) (key : Option (List UInt8)) (keySz : Nat) :
    Exec Fault (Int × Option ChunkCache) :=
  match cc with
  | none => return (-1, none)
  | some cc =>
      match cc.cache with
      | none => return (-1, some cc)
      | some d => do
          let (result, d) ← cHashmapDel d key keySz
          return (result, some { cc with cache := some d })

def chunkCacheAdd (cc : Option ChunkCache) (key : Option (List UInt8)) (keySz : Nat)
    (value : Option (List UInt8)) (valSz : Nat) : Exec Fault (Int × Option ChunkCache) :=
  match cc with
  | none => return (-1, none)
  | some cc =>
      match cc.cache with
      | none => return (-1, some cc)
      | some d => do
          let (result, d) ← cHashmapPut d key keySz value valSz
          return (result, some { cc with cache := some d })

-- `c_hashmap_put` refuses a `NULL` map, and of the value it looks at the pointer only.
def putCached (cache : Option CHashmap) (key : List UInt8) : Exec Fault (Option CHashmap) :=
  match cache with
  | none => return none
  | some d => do
      let (_, d) ← cHashmapPut d (some key) key.length (some []) 8
      return some d

/-- The counters of the filling loop, with the chunks it has passed to `c_hashmap_put`. -/
structure FillState where
  i : Nat
  j : Nat
  cc : ChunkCache
  puts : List LoadedChunk

section
-- What the conversion `%s` makes of an `int` is undefined, so it is a parameter.
variable (format : Nat → Exec Fault (List UInt8))

-- The loop counts `i` up, a `size_t`, and leaves `j` as it is.
def fillPass (vector : List LoadedChunk) (s : FillState) :
    Exec Fault (Pass FillState (ChunkCache × List LoadedChunk)) :=
  if s.j < s.i then
    match vector[s.j]? with
    | none => .fail .nullPointer
    | some ck => do
        Exec.check (s.j < s.cc.chunks.length) .outOfBounds
        let text ← format ck.chunk.chunkId
        let key := text.take 63
        let cache ← putCached s.cc.cache key
        return .again
          { i := (s.i + 1) % 2 ^ 64
            j := s.j
            cc := { cache, chunks := s.cc.chunks.set s.j (some ck) }
            puts := s.puts ++ [ck] }
  else return .done (s.cc, s.puts)

/-- The whole of `chunk_cache_load`, with `chunkCacheLoad` as its first loop. -/
def chunkCacheLoadAll (opens : List UInt8 → Bool) (dir : Directory) (root : List UInt8)
    (lstat : List UInt8 → Option Stat) (names : List (List UInt8)) (fuel : Nat) : Exec Fault (ChunkCache × List LoadedChunk) := do
  let vector ← chunkCacheLoad opens dir root lstat names
  let cc := chunkCacheNew (vector.length + 1)
  Exec.loop (fillPass format vector) fuel { i := vector.length, j := 0, cc, puts := [] }

end

end SampleFs.Chunkserver

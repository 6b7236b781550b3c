import SampleFs.Lib.Absorb
import SampleFs.Lib.Words

/-!
# `c_hash.c`: the Murmur hashes

On a little-endian machine. Both go over the key in words and take the bytes behind the last word
together, each shifted to its place.
-/

namespace SampleFs.Base
open Lib

namespace Murmur

def m : BitVec 32 := 0x5bd1e995

def word (h : BitVec 32) (block : List UInt8) : BitVec 32 :=
  let k := bytesWord block * m
  let k := k ^^^ (k >>> 24)
  let k := k * m
  (h * m) ^^^ k

-- All cases of the `switch` fall through to the multiplication, and an empty rest goes to none of them.
def tail (h : BitVec 32) (rest : List UInt8) : BitVec 32 :=
  match rest with
  | [] => h
  | rest => (h ^^^ bytesWord rest) * m

def mixed (h : BitVec 32) : BitVec 32 :=
  let h := h ^^^ (h >>> 13)
  let h := h * m
  h ^^^ (h >>> 15)

end Murmur

def cHashMurmur (key : List UInt8) : BitVec 32 :=
  let length := BitVec.ofNat 32 key.length
  let seed := 0xdeadbeef * length
  Murmur.mixed (absorb 4 Murmur.word Murmur.tail key (seed ^^^ length))

/-! ## The third version, with a result of 128 bits -/

namespace Murmur3

def fmix64 (k : BitVec 64) : BitVec 64 :=
  let k := k ^^^ (k >>> 33)
  let k := k * 0xff51afd7ed558ccd
  let k := k ^^^ (k >>> 33)
  let k := k * 0xc4ceb9fe1a85ec53
  k ^^^ (k >>> 33)

def c1 : BitVec 64 := 0x87c37b91114253d5
def c2 : BitVec 64 := 0x4cf5ad432745937f

structure State where
  h1 : BitVec 64
  h2 : BitVec 64
deriving DecidableEq, Repr

def k1 (k : BitVec 64) : BitVec 64 := rotl (k * c1) 31 * c2
def k2 (k : BitVec 64) : BitVec 64 := rotl (k * c2) 33 * c1

def block (s : State) (bytes : List UInt8) : State :=
  let h1 := s.h1 ^^^ k1 (bytesWord (bytes.take 8))
  let h1 := rotl h1 27 + s.h2
  let h1 := h1 * 5 + 0x52dce729
  let h2 := s.h2 ^^^ k2 (bytesWord (bytes.drop 8))
  let h2 := rotl h2 31 + h1
  let h2 := h2 * 5 + 0x38495ab5
  ⟨h1, h2⟩

-- The bytes from 8 on belong to `k2`, which is mixed in only if there is one.
def tail (s : State) (rest : List UInt8) : State :=
  let h2 := if 8 < rest.length then s.h2 ^^^ k2 (bytesWord (rest.drop 8)) else s.h2
  let h1 := if 0 < rest.length then s.h1 ^^^ k1 (bytesWord (rest.take 8)) else s.h1
  ⟨h1, h2⟩

def final (len : Nat) (s : State) : State :=
  let h1 := s.h1 ^^^ BitVec.ofNat 64 len
  let h2 := s.h2 ^^^ BitVec.ofNat 64 len
  let h1 := h1 + h2
  let h2 := h2 + h1
  let h1 := fmix64 h1
  let h2 := fmix64 h2
  let h1 := h1 + h2
  let h2 := h2 + h1
  ⟨h1, h2⟩

end Murmur3

-- `len` is an `int`, so a key has fewer than 2^31 bytes.
def cHashMurmurHash3X64_128 (key : List UInt8) (seed : BitVec 32) : Murmur3.State :=
  Murmur3.final key.length
    (absorb 16 Murmur3.block Murmur3.tail key ⟨seed.setWidth 64, seed.setWidth 64⟩)

end SampleFs.Base

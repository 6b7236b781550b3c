import SampleFs.Lib.CInt

/-!
# `c_hash.c`: hashes over plain `char`

A key is the bytes of a `const char *`, and whether `char` is signed is up to the platform. Where a
`char` is converted to a wider word the two kinds differ.
-/

namespace SampleFs.Base
open Lib

inductive PlainChar where
  | signed
  | unsigned
deriving DecidableEq, Repr

namespace PlainChar
variable (char : PlainChar)

def value (c : UInt8) : Int :=
  match char with
  | signed => toSigned 8 c.toNat
  | unsigned => c.toNat

-- `(uint32_t)key[x]`
def toUInt32 (c : UInt8) : UInt32 := UInt32.ofNat (toUnsigned 32 (char.value c))

-- `(uint64_t)key[x]`
def toUInt64 (c : UInt8) : UInt64 := UInt64.ofNat (toUnsigned 64 (char.value c))

def fnv64Init : UInt64 := 0xcbf29ce484222325
def fnv64Prime : UInt64 := 0x100000001b3
def fnv32Init : UInt32 := 2166136261
def fnv32Prime : UInt32 := 16777619

def cHashFnv1_64 (key : List UInt8) : UInt32 :=
  (key.foldl (fun hash c => (hash * fnv64Prime) ^^^ char.toUInt64 c) fnv64Init).toUInt32

def fnv1 (prime init : UInt32) (key : List UInt8) : UInt32 :=
  key.foldl (fun hash c => (hash * prime) ^^^ char.toUInt32 c) init

def fnv1a (prime init : UInt32) (key : List UInt8) : UInt32 :=
  key.foldl (fun hash c => (hash ^^^ char.toUInt32 c) * prime) init

-- the 64-bit constants in a `uint32_t`
def cHashFnv1a_64 (key : List UInt8) : UInt32 := char.fnv1a fnv64Prime.toUInt32 fnv64Init.toUInt32 key

def cHashFnv1_32 (key : List UInt8) : UInt32 := char.fnv1 fnv32Prime fnv32Init key

def cHashFnv1a_32 (key : List UInt8) : UInt32 := char.fnv1a fnv32Prime fnv32Init key

def oneAtATimeStep (value : UInt32) (c : UInt8) : UInt32 :=
  let value := value + char.toUInt32 c
  let value := value + (value <<< 10)
  value ^^^ (value >>> 6)

def cHashOneAtATime (key : List UInt8) : UInt32 :=
  let value := key.foldl char.oneAtATimeStep 0
  let value := value + (value <<< 3)
  let value := value ^^^ (value >>> 11)
  value + (value <<< 15)

/-! ## Hsieh's hash -/

-- `get16bits` goes through `uint8_t`
def get16bits (low high : UInt8) : UInt32 := (high.toUInt32 <<< 8) + low.toUInt32

/-- The words of the key, and the one to three bytes behind them. -/
def hsiehWords : List UInt8 → UInt32 → UInt32
  | a :: b :: c :: d :: rest, hash =>
      let hash := hash + get16bits a b
      let tmp := (get16bits c d <<< 11) ^^^ hash
      let hash := (hash <<< 16) ^^^ tmp
      hsiehWords rest (hash + (hash >>> 11))
  | [a, b, c], hash =>
      let hash := hash + get16bits a b
      let hash := hash ^^^ (hash <<< 16)
      -- the only byte that is read as a plain `char`
      let hash := hash ^^^ (char.toUInt32 c <<< 18)
      hash + (hash >>> 11)
  | [a, b], hash =>
      let hash := hash + get16bits a b
      let hash := hash ^^^ (hash <<< 11)
      hash + (hash >>> 17)
  | [a], hash =>
      let hash := hash + a.toUInt32
      let hash := hash ^^^ (hash <<< 10)
      hash + (hash >>> 1)
  | [], hash => hash

/-- The body that `c_hash_hsieh` and `dict_default_hash_fn` have in common. -/
def hsieh (key : List UInt8) : UInt32 :=
  if key.length = 0 then 0
  else
    let hash := char.hsiehWords key 0
    let hash := hash ^^^ (hash <<< 3)
    let hash := hash + (hash >>> 5)
    let hash := hash ^^^ (hash <<< 4)
    let hash := hash + (hash >>> 17)
    let hash := hash ^^^ (hash <<< 25)
    hash + (hash >>> 6)

def cHashHsieh (key : List UInt8) : UInt32 := char.hsieh key

def dictDefaultHashFn (key : List UInt8) : UInt32 := char.hsieh key

end PlainChar

end SampleFs.Base

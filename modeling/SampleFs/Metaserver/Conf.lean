import SampleFs.Lib.CString

/-!
# `metaserver/conf.c`

jansson is not part of the repository. An object is taken as its members in the order in which the
iterator hands them out; that the keys of an object differ is what jansson promises.
-/

namespace SampleFs.Metaserver
open Lib

structure JsonMember (V : Type) where
  key : CString
  value : V
deriving DecidableEq, Repr

structure JsonObject (V : Type) where
  members : List (JsonMember V)
  distinct : (members.map JsonMember.key).Nodup

structure Conf (V : Type) where
  root : Option (JsonObject V)

variable {V : Type}

-- Both lengths are taken of the key that is looked for.
def confScan (key : CString) : List (JsonMember V) → Option V
  | [] => none
  | iter :: rest =>
      let dKeySz := key.strlen
      let sKeySz := key.strlen
      if sKeySz = dKeySz ∧ strncmp key.bytes iter.key.bytes dKeySz = 0 then some iter.value
      else confScan key rest

def confSearch (cf : Option (Conf V)) (key : Option CString) : Option V := do
  let cf ← cf
  let root ← cf.root
  let key ← key
  confScan key root.members

end SampleFs.Metaserver

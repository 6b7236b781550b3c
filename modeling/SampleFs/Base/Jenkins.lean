import SampleFs.Lib.Bytes

/-!
# `c_hash_jenkins`

On a little-endian machine. The key is an address in memory and a length; by its alignment it is read
in words of 32 bits, of 16 bits or byte by byte, and the first of these reads past its end.
-/

namespace SampleFs.Base.Jenkins
open Lib

abbrev Memory := Nat → UInt8

def read32 (mem : Memory) (at_ : Nat) : UInt32 :=
  UInt32.ofNat (littleEndian [mem at_, mem (at_ + 1), mem (at_ + 2), mem (at_ + 3)])

-- a `uint16_t` that has been promoted
def read16 (mem : Memory) (at_ : Nat) : UInt32 := UInt32.ofNat (littleEndian [mem at_, mem (at_ + 1)])

def read8 (mem : Memory) (at_ : Nat) : UInt32 := (mem at_).toUInt32

structure State where
  a : UInt32
  b : UInt32
  c : UInt32
deriving DecidableEq, Repr

def rot (x k : UInt32) : UInt32 := (x <<< k) ||| (x >>> (32 - k))

def mix (s : State) : State :=
  let ⟨a, b, c⟩ := s
  let a := a - c
  let a := a ^^^ rot c 4
  let c := c + b
  let b := b - a
  let b := b ^^^ rot a 6
  let a := a + c
  let c := c - b
  let c := c ^^^ rot b 8
  let b := b + a
  let a := a - c
  let a := a ^^^ rot c 16
  let c := c + b
  let b := b - a
  let b := b ^^^ rot a 19
  let a := a + c
  let c := c - b
  let c := c ^^^ rot b 4
  let b := b + a
  ⟨a, b, c⟩

def final (s : State) : State :=
  let ⟨a, b, c⟩ := s
  let c := c ^^^ b
  let c := c - rot b 14
  let a := a ^^^ c
  let a := a - rot c 11
  let b := b ^^^ a
  let b := b - rot a 25
  let c := c ^^^ b
  let c := c - rot b 16
  let a := a ^^^ c
  let a := a - rot c 4
  let b := b ^^^ a
  let b := b - rot a 14
  let c := c ^^^ b
  let c := c - rot b 24
  ⟨a, b, c⟩

def jenkinsInitval : UInt32 := 13

/-- `while (length > 12)`, with the address and the length that are left. -/
def blocks (add : Nat → State → State) (k length : Nat) (s : State) : Nat × Nat × State :=
  if length > 12 then blocks add (k + 12) (length - 12) (mix (add k s)) else (k, length, s)
termination_by length

/-- One path: its reads of a whole block, and its switch over the last one, which returns `c` for an
empty key. -/
def path (add : Nat → State → State) (tail : Nat → Nat → State → Pass State UInt32) (key length : Nat) : UInt32 :=
  let init := 0xdeadbeef + UInt32.ofNat length + jenkinsInitval
  let (k, rest, s) := blocks add key length ⟨init, init, init⟩
  match tail k rest s with
  | .done c => c
  | .again s => (final s).c

section
variable (mem : Memory)

/-! ## Words of 32 bits -/

def add32 (k : Nat) (s : State) : State where
  a := s.a + read32 mem k
  b := s.b + read32 mem (k + 4)
  c := s.c + read32 mem (k + 8)

def tail32 (k length : Nat) (s : State) : Pass State UInt32 :=
  let k0 := read32 mem k
  let k1 := read32 mem (k + 4)
  let k2 := read32 mem (k + 8)
  match length with
  | 12 => .again ⟨s.a + k0, s.b + k1, s.c + k2⟩
  | 11 => .again ⟨s.a + k0, s.b + k1, s.c + (k2 &&& 0xffffff)⟩
  | 10 => .again ⟨s.a + k0, s.b + k1, s.c + (k2 &&& 0xffff)⟩
  | 9 => .again ⟨s.a + k0, s.b + k1, s.c + (k2 &&& 0xff)⟩
  | 8 => .again ⟨s.a + k0, s.b + k1, s.c⟩
  | 7 => .again ⟨s.a + k0, s.b + (k1 &&& 0xffffff), s.c⟩
  | 6 => .again ⟨s.a + k0, s.b + (k1 &&& 0xffff), s.c⟩
  | 5 => .again ⟨s.a + k0, s.b + (k1 &&& 0xff), s.c⟩
  | 4 => .again ⟨s.a + k0, s.b, s.c⟩
  | 3 => .again ⟨s.a + (k0 &&& 0xffffff), s.b, s.c⟩
  | 2 => .again ⟨s.a + (k0 &&& 0xffff), s.b, s.c⟩
  | 1 => .again ⟨s.a + (k0 &&& 0xff), s.b, s.c⟩
  | _ => .done s.c

def jenkins32 : (key length : Nat) → UInt32 := path (add32 mem) (tail32 mem)

/-! ## Words of 16 bits -/

def add16 (k : Nat) (s : State) : State where
  a := s.a + (read16 mem k + (read16 mem (k + 2) <<< 16))
  b := s.b + (read16 mem (k + 4) + (read16 mem (k + 6) <<< 16))
  c := s.c + (read16 mem (k + 8) + (read16 mem (k + 10) <<< 16))

-- An odd case adds its byte and falls through to the even one below it.
def tail16 (k length : Nat) (s : State) : Pass State UInt32 :=
  let word (i : Nat) := read16 mem (k + 2 * i)
  let k8 (i : Nat) := read8 mem (k + i)
  let case2 (s : State) : State := { s with a := s.a + word 0 }
  let case4 (s : State) : State := { s with a := s.a + (word 0 + (word 1 <<< 16)) }
  let case6 (s : State) : State := { s with b := s.b + word 2, a := s.a + (word 0 + (word 1 <<< 16)) }
  let case8 (s : State) : State :=
    { s with b := s.b + (word 2 + (word 3 <<< 16)), a := s.a + (word 0 + (word 1 <<< 16)) }
  let case10 (s : State) : State :=
    ⟨s.a + (word 0 + (word 1 <<< 16)), s.b + (word 2 + (word 3 <<< 16)), s.c + word 4⟩
  match length with
  | 12 => .again ⟨s.a + (word 0 + (word 1 <<< 16)), s.b + (word 2 + (word 3 <<< 16)), s.c + (word 4 + (word 5 <<< 16))⟩
  | 11 => .again (case10 { s with c := s.c + (k8 10 <<< 16) })
  | 10 => .again (case10 s)
  | 9 => .again (case8 { s with c := s.c + k8 8 })
  | 8 => .again (case8 s)
  | 7 => .again (case6 { s with b := s.b + (k8 6 <<< 16) })
  | 6 => .again (case6 s)
  | 5 => .again (case4 { s with b := s.b + k8 4 })
  | 4 => .again (case4 s)
  | 3 => .again (case2 { s with a := s.a + (k8 2 <<< 16) })
  | 2 => .again (case2 s)
  | 1 => .again { s with a := s.a + k8 0 }
  | _ => .done s.c

def jenkins16 : (key length : Nat) → UInt32 := path (add16 mem) (tail16 mem)

/-! ## Bytes -/

def add8 (k : Nat) (s : State) : State where
  a := s.a + read8 mem k + (read8 mem (k + 1) <<< 8) + (read8 mem (k + 2) <<< 16) + (read8 mem (k + 3) <<< 24)
  b := s.b + read8 mem (k + 4) + (read8 mem (k + 5) <<< 8) + (read8 mem (k + 6) <<< 16) + (read8 mem (k + 7) <<< 24)
  c := s.c + read8 mem (k + 8) + (read8 mem (k + 9) <<< 8) + (read8 mem (k + 10) <<< 16) + (read8 mem (k + 11) <<< 24)

-- All cases fall through.
def tail8 (k length : Nat) (s : State) : Pass State UInt32 :=
  let k8 (i : Nat) := read8 mem (k + i)
  let case1 (s : State) : State := { s with a := s.a + k8 0 }
  let case2 (s : State) : State := case1 { s with a := s.a + (k8 1 <<< 8) }
  let case3 (s : State) : State := case2 { s with a := s.a + (k8 2 <<< 16) }
  let case4 (s : State) : State := case3 { s with a := s.a + (k8 3 <<< 24) }
  let case5 (s : State) : State := case4 { s with b := s.b + k8 4 }
  let case6 (s : State) : State := case5 { s with b := s.b + (k8 5 <<< 8) }
  let case7 (s : State) : State := case6 { s with b := s.b + (k8 6 <<< 16) }
  let case8 (s : State) : State := case7 { s with b := s.b + (k8 7 <<< 24) }
  let case9 (s : State) : State := case8 { s with c := s.c + k8 8 }
  let case10 (s : State) : State := case9 { s with c := s.c + (k8 9 <<< 8) }
  let case11 (s : State) : State := case10 { s with c := s.c + (k8 10 <<< 16) }
  let case12 (s : State) : State := case11 { s with c := s.c + (k8 11 <<< 24) }
  match length with
  | 12 => .again (case12 s)
  | 11 => .again (case11 s)
  | 10 => .again (case10 s)
  | 9 => .again (case9 s)
  | 8 => .again (case8 s)
  | 7 => .again (case7 s)
  | 6 => .again (case6 s)
  | 5 => .again (case5 s)
  | 4 => .again (case4 s)
  | 3 => .again (case3 s)
  | 2 => .again (case2 s)
  | 1 => .again (case1 s)
  | _ => .done s.c

def jenkins8 : (key length : Nat) → UInt32 := path (add8 mem) (tail8 mem)

def cHashJenkins (key length : Nat) : UInt32 :=
  if key &&& 0x3 = 0 then jenkins32 mem key length
  else if key &&& 0x1 = 0 then jenkins16 mem key length
  else jenkins8 mem key length

end

end SampleFs.Base.Jenkins

import Mathlib.Tactic.Ring

/-!
# Files behind a descriptor

A regular file with the offset of one open descriptor. The calls neither fail nor cut a transfer
short, except that a read ends at the end of the file.
-/

namespace SampleFs.Lib

/-- What the code asks of the kernel for an open descriptor. Results are `ssize_t`, so a call that
fails gives a negative one. -/
structure Syscalls (φ : Type) where
  lseek : φ → Int → φ
  write : φ → List UInt8 → Int × φ
  read : φ → Nat → (Int × List UInt8) × φ

structure OpenFile where
  content : List UInt8
  offset : Nat
  append : Bool
deriving DecidableEq, Repr

namespace OpenFile

-- `off_t` has 64 bits: a target outside it is refused, and the offset stays.
def lseekCur (file : OpenFile) (delta : Int) : OpenFile :=
  if 0 ≤ file.offset + delta ∧ file.offset + delta < 2 ^ 63 then
    { file with offset := (file.offset + delta).toNat }
  else file

def putAt (content : List UInt8) (pos : Nat) (data : List UInt8) : List UInt8 :=
  (content ++ List.replicate (pos - content.length) 0).take pos ++ data ++
    content.drop (pos + data.length)

def write (file : OpenFile) (data : List UInt8) : Int × OpenFile :=
  if data = [] then (0, file)
  else
    let pos := if file.append then file.content.length else file.offset
    (data.length, { file with content := putAt file.content pos data, offset := pos + data.length })

def read (file : OpenFile) (size : Nat) : (Int × List UInt8) × OpenFile :=
  let bytes := (file.content.drop file.offset).take size
  ((bytes.length, bytes), { file with offset := file.offset + bytes.length })

def syscalls : Syscalls OpenFile where
  lseek := lseekCur
  write := write
  read := read

@[simp] theorem lseekCur_content (file : OpenFile) (delta : Int) :
    (file.lseekCur delta).content = file.content := by
  unfold lseekCur
  split <;> rfl

@[simp] theorem lseekCur_append (file : OpenFile) (delta : Int) :
    (file.lseekCur delta).append = file.append := by
  unfold lseekCur
  split <;> rfl

theorem write_append {file : OpenFile} (append : file.append = true) (data : List UInt8) :
    (file.write data).1 = data.length ∧ (file.write data).2.append = true ∧
      (file.write data).2.content = file.content ++ data := by
  by_cases empty : data = []
  · simp [write, empty, append]
  · simp [write, empty, append, putAt]

theorem read_full {file : OpenFile} {size : Nat} (room : file.offset + size ≤ file.content.length) :
    ((file.content.drop file.offset).take size).length = size := by
  simp only [List.length_take, List.length_drop]
  omega

end OpenFile

end SampleFs.Lib

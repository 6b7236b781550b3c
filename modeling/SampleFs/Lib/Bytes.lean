import SampleFs.Lib.Exec

/-!
# Byte buffers

Words read from a buffer, bytes written into one, and `strncpy`, which fills its whole destination and
reads no further than the first NUL.
-/

namespace SampleFs.Lib

def littleEndian : List UInt8 → Nat
  | [] => 0
  | byte :: rest => byte.toNat + 256 * littleEndian rest

theorem littleEndian_lt (bytes : List UInt8) : littleEndian bytes < 256 ^ bytes.length := by
  induction bytes with
  | nil => simp [littleEndian]
  | cons byte rest ih =>
      have small := byte.toNat_lt
      rw [littleEndian, List.length_cons, Nat.pow_succ]
      omega

theorem littleEndian_inj {a b : List UInt8} (length : a.length = b.length) :
    littleEndian a = littleEndian b ↔ a = b := by
  induction a generalizing b with
  | nil => simp [List.length_eq_zero_iff.mp length.symm]
  | cons x a ih =>
      cases b with
      | nil => simp at length
      | cons y b =>
          have tails := ih (Nat.succ.inj length)
          have smallX := x.toNat_lt
          have smallY := y.toNat_lt
          rw [littleEndian, littleEndian, List.cons.injEq, ← tails, ← UInt8.toNat_inj]
          omega

def load (buf : List UInt8) (pos width : Nat) : Exec Fault Nat := do
  Exec.check (pos + width ≤ buf.length) .outOfBounds
  return littleEndian ((buf.drop pos).take width)

theorem load_inside {buf : List UInt8} {pos width : Nat} (inside : pos + width ≤ buf.length) :
    load buf pos width = .ok (littleEndian ((buf.drop pos).take width)) := by
  rw [load, Exec.check_pos _ inside]
  rfl

theorem load_ne_timeout (buf : List UInt8) (pos width : Nat) : load buf pos width ≠ .timeout := by
  simp [load, Exec.bind_eq_timeout, Exec.check_ne_timeout]

theorem load_lt {buf : List UInt8} {pos width value : Nat} (loads : load buf pos width = .ok value) :
    value < 256 ^ width := by
  obtain ⟨_, _, same⟩ := Exec.bind_eq_ok.mp loads
  cases same
  refine (littleEndian_lt _).trans_le (Nat.pow_le_pow_right (by decide) ?_)
  exact List.length_take_le ..

def storeBytes (buf : List UInt8) (pos : Nat) (bytes : List UInt8) : Exec Fault (List UInt8) := do
  Exec.check (pos + bytes.length ≤ buf.length) .outOfBounds
  return buf.take pos ++ bytes ++ buf.drop (pos + bytes.length)

theorem storeBytes_inside {buf bytes : List UInt8} {pos : Nat} (inside : pos + bytes.length ≤ buf.length) :
    storeBytes buf pos bytes = .ok (buf.take pos ++ bytes ++ buf.drop (pos + bytes.length)) := by
  rw [storeBytes, Exec.check_pos _ inside]
  rfl

/-- The `n` bytes that `strncpy` leaves in its destination. -/
def strncpyBytes : (src : List UInt8) → (n : Nat) → Exec Fault (List UInt8)
  | _, 0 => return []
  | [], _ + 1 => .fail .outOfBounds
  | c :: src, n + 1 => if c = 0 then return List.replicate (n + 1) 0 else return c :: (← strncpyBytes src n)

theorem strncpyBytes_ok {src : List UInt8} {n : Nat} : (∃ out, strncpyBytes src n = .ok out) ↔ 0 ∈ src ∨ n ≤ src.length := by
  induction src generalizing n with
  | nil =>
      cases n with
      | zero => exact iff_of_true ⟨[], rfl⟩ (.inr (Nat.le_refl _))
      | succ n => simp [strncpyBytes]
  | cons c src ih =>
      cases n with
      | zero => exact iff_of_true ⟨[], rfl⟩ (.inr (Nat.zero_le _))
      | succ n =>
          by_cases zero : c = 0
          · rw [strncpyBytes, if_pos zero]
            exact iff_of_true ⟨_, rfl⟩ (.inl (by rw [zero]; exact List.mem_cons_self ..))
          · have same : (0 ∈ c :: src ∨ n + 1 ≤ (c :: src).length) ↔ 0 ∈ src ∨ n ≤ src.length := by
              rw [List.mem_cons, List.length_cons, Nat.succ_le_succ_iff]
              simp [Ne.symm zero]
            rw [strncpyBytes, if_neg zero, same, ← ih]
            constructor
            · rintro ⟨out, copies⟩
              obtain ⟨rest, copied, _⟩ := Exec.bind_eq_ok.mp copies
              exact ⟨rest, copied⟩
            · rintro ⟨rest, copied⟩
              exact ⟨c :: rest, Exec.bind_eq_ok.mpr ⟨rest, copied, rfl⟩⟩

theorem length_strncpyBytes {src out : List UInt8} {n : Nat} (copies : strncpyBytes src n = .ok out) : out.length = n := by
  induction src generalizing n out with
  | nil =>
      cases n with
      | zero =>
          cases copies
          rfl
      | succ n => cases copies
  | cons c src ih =>
      cases n with
      | zero =>
          cases copies
          rfl
      | succ n =>
          rw [strncpyBytes] at copies
          by_cases zero : c = 0
          · rw [if_pos zero] at copies
            cases copies
            exact List.length_replicate
          · rw [if_neg zero] at copies
            obtain ⟨rest, copied, same⟩ := Exec.bind_eq_ok.mp copies
            cases same
            rw [List.length_cons, ih copied]

theorem strncpyBytes_keeps {src text out : List UInt8} {n : Nat} (copies : strncpyBytes src n = .ok out) (noNul : 0 ∉ text)
    (starts : text <+: src) (room : text.length ≤ n) : text <+: out := by
  induction text generalizing src n out with
  | nil => exact List.nil_prefix
  | cons c text ih =>
      obtain ⟨rest, rfl⟩ := starts
      cases n with
      | zero => cases room
      | succ n =>
          have other : c ≠ 0 := fun zero => noNul (by rw [zero]; exact List.mem_cons_self ..)
          rw [List.cons_append, strncpyBytes, if_neg other] at copies
          obtain ⟨later, copied, same⟩ := Exec.bind_eq_ok.mp copies
          cases same
          rw [List.cons_prefix_cons]
          refine ⟨rfl, ih copied (fun zero => noNul (List.mem_cons_of_mem _ zero)) (List.prefix_append ..) ?_⟩
          exact Nat.le_of_succ_le_succ room

def leBytes : (width value : Nat) → List UInt8
  | 0, _ => []
  | width + 1, value => UInt8.ofNat (value % 256) :: leBytes width (value / 256)

/-- The byte of an image that is zero outside the given pieces. -/
def imageByte : List (Nat × List UInt8) → Nat → UInt8
  | [], _ => 0
  | (start, bytes) :: rest, i =>
      if start ≤ i ∧ i < start + bytes.length then bytes.getD (i - start) 0 else imageByte rest i

end SampleFs.Lib

import SampleFs.Lib.PosixFile

/-!
# Calls with scripted results

An open file whose reads and writes succeed, stop short or fail as a script says: `results i` is
what the call with number `i` gives back. Beside it, the two sums a caller can keep over the
results, one that adds failures as they come and one that counts bytes only.
-/

namespace SampleFs.Lib

structure ScriptedFile where
  file : OpenFile
  calls : Nat
deriving DecidableEq, Repr

/-- What a call may give when it can move `limit` bytes: all of them, fewer, or an error. -/
def Answers (limit : Nat) (result : Int) : Prop :=
  result = -1 ∨ 0 ≤ result ∧ result ≤ limit ∧ (0 < limit → 0 < result)

instance (limit : Nat) (result : Int) : Decidable (Answers limit result) :=
  inferInstanceAs (Decidable (_ ∨ _))

theorem Answers.bounds {limit : Nat} {result : Int} (answers : Answers limit result) :
    -1 ≤ result ∧ result ≤ limit := by
  rcases answers with rfl | ⟨nonneg, le, _⟩ <;> omega

theorem Answers.nonneg {limit : Nat} {result : Int} (answers : Answers limit result)
    (works : result ≠ -1) : 0 ≤ result :=
  (answers.resolve_left works).1

theorem Answers.toNat_le {limit : Nat} {result : Int} (answers : Answers limit result) :
    result.toNat ≤ limit := by
  have := answers.bounds
  omega

namespace ScriptedFile
variable (results : Nat → Int)

def lseek (s : ScriptedFile) (delta : Int) : ScriptedFile :=
  { s with file := s.file.lseekCur delta }

def write (s : ScriptedFile) (data : List UInt8) : Int × ScriptedFile :=
  let result := results s.calls
  (result, { file := (s.file.write (data.take result.toNat)).2, calls := s.calls + 1 })

def read (s : ScriptedFile) (_size : Nat) : (Int × List UInt8) × ScriptedFile :=
  let result := results s.calls
  let moved := s.file.read result.toNat
  ((result, moved.1.2), { file := moved.2, calls := s.calls + 1 })

def syscalls : Syscalls ScriptedFile where
  lseek := lseek
  write := write results
  read := read results

end ScriptedFile

section Ledger
variable (results : Nat → Int)

def balance : Nat → Int
  | 0 => 0
  | i + 1 => balance i + results i

def delivered : Nat → Nat
  | 0 => 0
  | i + 1 => delivered i + (results i).toNat

/-- Call number `i` is made by a caller that goes on while its balance is below `len`. -/
def Reached (len i : Nat) : Prop := ∀ j ≤ i, 0 ≤ balance results j ∧ balance results j < len

variable {results} {len : Nat}

theorem Reached.of_le {i j : Nat} (reached : Reached results len i) (le : j ≤ i) :
    Reached results len j :=
  fun k before => reached k (Nat.le_trans before le)

theorem reached_of_before {i : Nat} (before : ∀ j < i, Reached results len j)
    (nonneg : 0 ≤ balance results i) (less : balance results i < len) : Reached results len i := by
  intro j le
  rcases Nat.lt_or_eq_of_le le with earlier | rfl
  · exact before j earlier j (Nat.le_refl j)
  · exact ⟨nonneg, less⟩

theorem Reached.lt {m i : Nat} (reached : Reached results len i) (full : balance results m = len) :
    i < m := by
  by_contra beyond
  have less := (reached m (Nat.le_of_not_lt beyond)).2
  omega

theorem reached_zero : Reached results len 0 ↔ 0 < len := by
  simp [Reached, balance]

theorem delivered_eq_balance {i : Nat} (atLeast : ∀ j < i, -1 ≤ results j) :
    balance results i ≤ delivered results i ∧
      (balance results i = delivered results i ↔ ∀ j < i, results j ≠ -1) := by
  induction i with
  | zero => simp [balance, delivered]
  | succ i ih =>
      obtain ⟨le, same⟩ := ih fun j less => atLeast j (Nat.lt_succ_of_lt less)
      have here := atLeast i (Nat.lt_succ_self i)
      simp only [balance, delivered, Nat.forall_lt_succ_right, ← same]
      omega

theorem balance_eq_zero {i : Nat} (works : ∀ j < i, 0 ≤ results j) :
    0 ≤ balance results i ∧ (balance results i = 0 ↔ ∀ j < i, results j = 0) := by
  induction i with
  | zero => simp [balance]
  | succ i ih =>
      obtain ⟨nonneg, same⟩ := ih fun j less => works j (Nat.lt_succ_of_lt less)
      have here := works i (Nat.lt_succ_self i)
      simp only [balance, Nat.forall_lt_succ_right, ← same]
      omega

section Bounded
variable {limit : Nat → Nat} {bound : Nat}
  (answers : ∀ i, Reached results len i → Answers (limit i) (results i))
  (within : ∀ i, Reached results len i → balance results i ≤ bound →
    balance results i + limit i ≤ bound)
include answers within

theorem balance_le {i : Nat} (before : ∀ j < i, Reached results len j) :
    -1 ≤ balance results i ∧ balance results i ≤ bound := by
  induction i with
  | zero => simp [balance]
  | succ i ih =>
      have reached := before i (Nat.lt_succ_self i)
      have below := (ih fun j less => before j (Nat.lt_succ_of_lt less)).2
      have room := within i reached below
      have nonneg := (reached i (Nat.le_refl i)).1
      have moved := (answers i reached).bounds
      simp only [balance]
      omega

/-- Results that never fail, and move a byte whenever they may, bring the balance to `len`. -/
theorem balance_completes (full : bound = len)
    (works : ∀ i, Reached results len i → results i ≠ -1)
    (room : ∀ i, Reached results len i → 0 < limit i) :
    ∃ m, balance results m = len ∧ ∀ j < m, Reached results len j := by
  by_contra never
  have goes : ∀ i, (∀ j < i, Reached results len j) ∧ (i : Int) ≤ balance results i := by
    intro i
    induction i with
    | zero => simp [balance]
    | succ i ih =>
        obtain ⟨before, grown⟩ := ih
        have short : balance results i ≠ len := fun full => never ⟨i, full, before⟩
        have le := (balance_le answers within before).2
        have reached : Reached results len i := reached_of_before before (by omega) (by omega)
        obtain ⟨_, _, positive⟩ := (answers i reached).resolve_left (works i reached)
        have more := positive (room i reached)
        refine ⟨fun j less => reached.of_le (Nat.lt_succ_iff.mp less), ?_⟩
        simp only [balance]
        omega
  obtain ⟨before, grown⟩ := goes (len + 1)
  have le := (balance_le answers within before).2
  omega

end Bounded

end Ledger

end SampleFs.Lib

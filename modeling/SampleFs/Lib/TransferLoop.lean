import SampleFs.Lib.CInt
import SampleFs.Lib.Exec
import SampleFs.Lib.KernelScript

/-!
# Loops that add up what their calls give

A loop that makes calls until an unsigned total reaches a length, and adds every result to the total,
failures included. While the total stands it is the balance of the results so far; a failure at
balance 0 wraps it past every length, and any other failure takes back a byte that has been moved.
-/

namespace SampleFs.Lib

variable {σ ρ : Type} {body : σ → Exec Fault (Pass σ ρ)} {results : Nat → Int} {len : Nat}
  {total calls : σ → Nat} {leave : σ → ρ} {inv : σ → Prop}

variable (body results len total calls leave inv) in
/-- One pass of a transfer loop, from a state whose total is the balance of the results so far. -/
structure Transfer : Prop where
  goes : ∀ s, inv s → Reached results len (calls s) → (total s : Int) = balance results (calls s) →
    ∃ next, body s = .ok (.again next) ∧ total next = toUnsigned 64 (balance results (calls s + 1)) ∧
      calls next = calls s + 1 ∧ inv next
  leaves : ∀ s, len ≤ total s → body s = .ok (.done (leave s))
  atLeast : ∀ i, Reached results len i → -1 ≤ results i
  atMost : ∀ i, (∀ j < i, Reached results len j) → balance results i ≤ len
  word : len < 2 ^ 63

variable (results len total calls) in
def Completed (s : σ) : Prop :=
  (∀ j < calls s, Reached results len j) ∧ balance results (calls s) = len ∧ total s = len

variable (results len total calls) in
def Wrapped (s : σ) : Prop :=
  ∃ n, calls s = n + 1 ∧ Reached results len n ∧ balance results n = 0 ∧ results n = -1 ∧
    total s = 2 ^ 64 - 1

variable (transfer : Transfer body results len total calls leave inv) {start : σ}
include transfer

theorem Transfer.next {s : σ} (holds : inv s) (reached : Reached results len (calls s))
    (stands : (total s : Int) = balance results (calls s)) :
    ∃ next, body s = .ok (.again next) ∧ calls next = calls s + 1 ∧ inv next ∧
      ((total next : Int) = balance results (calls s + 1) ∧ 0 ≤ balance results (calls s + 1) ∨
        balance results (calls s) = 0 ∧ results (calls s) = -1 ∧ total next = 2 ^ 64 - 1) := by
  obtain ⟨next, again, sum, count, kept⟩ := transfer.goes s holds reached stands
  refine ⟨next, again, count, kept, ?_⟩
  have high := transfer.atMost (calls s + 1) fun j less => reached.of_le (Nat.lt_succ_iff.mp less)
  have word := transfer.word
  by_cases nonneg : 0 ≤ balance results (calls s + 1)
  · left
    obtain ⟨value, eq⟩ := Int.eq_ofNat_of_zero_le nonneg
    rw [sum, eq, toUnsigned_natCast (by omega)]
    exact ⟨rfl, Int.natCast_nonneg value⟩
  · right
    have before := (reached _ (Nat.le_refl _)).1
    have here := transfer.atLeast _ reached
    have minus : balance results (calls s + 1) = -1 := by
      simp only [balance] at nonneg ⊢
      omega
    refine ⟨?_, ?_, by rw [sum, minus]; rfl⟩
    · simp only [balance] at minus
      omega
    · simp only [balance] at minus
      omega

theorem Transfer.only {fuel : Nat} {result : ρ} (starts : inv start) (fresh : calls start = 0)
    (empty : total start = 0) (returns : Exec.loop body fuel start = .ok result) :
    ∃ s, result = leave s ∧ inv s ∧
      (Completed results len total calls s ∨ Wrapped results len total calls s) := by
  refine Exec.loop_post body
    (fun s => inv s ∧ ((∀ j < calls s, Reached results len j) ∧ 0 ≤ balance results (calls s) ∧
      (total s : Int) = balance results (calls s) ∨ Wrapped results len total calls s))
    (fun r => ∃ s, r = leave s ∧ inv s ∧
      (Completed results len total calls s ∨ Wrapped results len total calls s)) ?_ ?_ returns
  · rintro s p ⟨holds, ⟨before, nonneg, stands⟩ | wrapped⟩ passes
    · have atMost := transfer.atMost _ before
      by_cases more : total s < len
      · have reached : Reached results len (calls s) :=
          reached_of_before before nonneg (by omega)
        obtain ⟨next, again, count, kept, after⟩ := transfer.next holds reached stands
        cases again.symm.trans passes
        refine ⟨kept, ?_⟩
        rcases after with ⟨sum, nonneg⟩ | ⟨zero, failed, sum⟩
        · refine .inl ⟨?_, ?_, ?_⟩
          · intro j less
            exact reached.of_le (by omega)
          · rwa [count]
          · rwa [count]
        · exact .inr ⟨calls s, count, reached, zero, failed, sum⟩
      · cases (transfer.leaves s (Nat.le_of_not_lt more)).symm.trans passes
        exact ⟨s, rfl, holds, .inl ⟨before, by omega, by omega⟩⟩
    · have beyond : len ≤ total s := by
        obtain ⟨_, _, _, _, _, sum⟩ := wrapped
        have word := transfer.word
        omega
      cases (transfer.leaves s beyond).symm.trans passes
      exact ⟨s, rfl, holds, .inr wrapped⟩
  · exact ⟨starts, .inl ⟨by simp [fresh], by simp [fresh, balance], by simp [fresh, empty, balance]⟩⟩

theorem Transfer.reaches (starts : inv start) (fresh : calls start = 0) (empty : total start = 0)
    {i : Nat} (before : ∀ j < i, Reached results len j) (nonneg : 0 ≤ balance results i) :
    ∃ s, inv s ∧ calls s = i ∧ (total s : Int) = balance results i ∧
      ∀ result, Exec.Returns (fun n => Exec.loop body n s) result →
        Exec.Returns (fun n => Exec.loop body n start) result := by
  induction i with
  | zero => exact ⟨start, starts, fresh, by simp [empty, balance], fun _ returns => returns⟩
  | succ i ih =>
      have reached := before i (Nat.lt_succ_self i)
      obtain ⟨s, holds, count, stands, leads⟩ :=
        ih (fun j less => before j (Nat.lt_succ_of_lt less)) (reached i (Nat.le_refl i)).1
      subst count
      obtain ⟨next, again, count, kept, after⟩ := transfer.next holds reached stands
      rcases after with ⟨sum, _⟩ | ⟨zero, failed, _⟩
      · exact ⟨next, kept, count, sum, fun result returns => leads result (Exec.returns_again again returns)⟩
      · simp only [balance] at nonneg
        omega

theorem Transfer.completes (starts : inv start) (fresh : calls start = 0) (empty : total start = 0)
    {m : Nat} (before : ∀ j < m, Reached results len j) (full : balance results m = len) :
    ∃ s, inv s ∧ calls s = m ∧ total s = len ∧
      Exec.Returns (fun n => Exec.loop body n start) (leave s) := by
  obtain ⟨s, holds, count, stands, leads⟩ :=
    transfer.reaches starts fresh empty before (by rw [full]; exact Int.natCast_nonneg len)
  have total_eq : total s = len := by omega
  exact ⟨s, holds, count, total_eq,
    leads _ (Exec.returns_done (transfer.leaves s (Nat.le_of_eq total_eq.symm)))⟩

theorem Transfer.wraps (starts : inv start) (fresh : calls start = 0) (empty : total start = 0)
    {n : Nat} (reached : Reached results len n) (zero : balance results n = 0)
    (failed : results n = -1) :
    ∃ s, inv s ∧ calls s = n + 1 ∧ total s = 2 ^ 64 - 1 ∧
      Exec.Returns (fun n => Exec.loop body n start) (leave s) := by
  obtain ⟨s, holds, rfl, stands, leads⟩ := transfer.reaches starts fresh empty
    (fun j less => reached.of_le (Nat.le_of_lt less)) (Int.le_of_eq zero.symm)
  obtain ⟨next, again, count, kept, after⟩ := transfer.next holds reached stands
  have word := transfer.word
  have sum : total next = 2 ^ 64 - 1 := by
    rcases after with ⟨_, nonneg⟩ | ⟨_, _, sum⟩
    · simp only [balance] at nonneg
      omega
    · exact sum
  exact ⟨next, kept, count, sum, leads _ (Exec.returns_again again
    (Exec.returns_done (transfer.leaves next (by omega))))⟩

end SampleFs.Lib

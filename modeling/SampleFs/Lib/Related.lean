import SampleFs.Lib.Exec

/-!
# Related executions

Two executions are related if they return related values or stop alike. Binds and loops keep this, so
code that is written over two representations of one state can be compared pass by pass.
-/

namespace SampleFs.Lib
variable {ε α β γ δ σ τ ρ π : Type}

namespace Exec

inductive Related (values : α → β → Prop) : Exec ε α → Exec ε β → Prop
  | ok {a : α} {b : β} : values a b → Related values (ok a) (ok b)
  | fail (fault : ε) : Related values (fail fault) (fail fault)
  | timeout : Related values timeout timeout

end Exec

inductive Pass.Related (states : σ → τ → Prop) (results : ρ → π → Prop) : Pass σ ρ → Pass τ π → Prop
  | again {s : σ} {t : τ} : states s t → Related states results (again s) (again t)
  | done {r : ρ} {p : π} : results r p → Related states results (done r) (done p)

namespace Exec.Related
variable {values : α → β → Prop} {results : γ → δ → Prop}

theorem check (condition : Prop) [Decidable condition] (fault : ε) :
    Related (fun _ _ => True) (Exec.check condition fault) (Exec.check condition fault) := by
  by_cases holds : condition
  · rw [Exec.check_pos fault holds]
    exact .ok trivial
  · rw [Exec.check_neg fault holds]
    exact .fail fault

theorem bind {x : Exec ε α} {y : Exec ε β} {f : α → Exec ε γ} {g : β → Exec ε δ} (first : Related values x y)
    (next : ∀ a b, values a b → Related results (f a) (g b)) : Related results (x >>= f) (y >>= g) := by
  cases first with
  | ok same => exact next _ _ same
  | fail fault => exact .fail fault
  | timeout => exact .timeout

theorem loop (states : σ → τ → Prop) {leaves : ρ → π → Prop} {body : σ → Exec ε (Pass σ ρ)}
    {other : τ → Exec ε (Pass τ π)}
    (pass : ∀ s t, states s t → Related (Pass.Related states leaves) (body s) (other t)) (fuel : Nat) {s : σ} {t : τ}
    (start : states s t) : Related leaves (Exec.loop body fuel s) (Exec.loop other fuel t) := by
  induction fuel generalizing s t with
  | zero => exact .timeout
  | succ fuel ih =>
      refine (pass s t start).bind ?_
      intro p q same
      cases same with
      | again kept => exact ih kept
      | done left => exact .ok left

theorem returns {f : Nat → Exec ε α} {g : Nat → Exec ε β} (all : ∀ fuel, Related values (f fuel) (g fuel)) {a : α}
    (done : Exec.Returns f a) : ∃ b, Exec.Returns g b ∧ values a b := by
  obtain ⟨fuel, runs⟩ := done
  have same := all fuel
  rw [runs] at same
  generalize reached : g fuel = y at same
  cases same with
  | ok related => exact ⟨_, ⟨fuel, reached⟩, related⟩

end Exec.Related

end SampleFs.Lib

import Mathlib.Tactic.Common

/-!
# Runs of a system

A system is a relation between a state, an input, an output and the next state. A run is a history
of inputs with their outputs; the rules below carry a fact about one step to every run.
-/

namespace SampleFs.Lib
variable {σ ι ο τ : Type}

abbrev System (σ ι ο : Type) := σ → ι → ο → σ → Prop

inductive Run (step : System σ ι ο) : σ → List (ι × ο) → σ → Prop
  | nil (s : σ) : Run step s [] s
  | cons {s next final : σ} {i : ι} {o : ο} {history : List (ι × ο)} :
      step s i o next → Run step next history final → Run step s ((i, o) :: history) final

def guarded (condition : σ → ι → Prop) (step : System σ ι ο) : System σ ι ο :=
  fun s i o next => condition s i ∧ step s i o next

namespace Run
variable {step : System σ ι ο}

theorem single {s next : σ} {i : ι} {o : ο} (taken : step s i o next) :
    Run step s [(i, o)] next :=
  .cons taken (.nil next)

theorem append {s next final : σ} {first later : List (ι × ο)} (run : Run step s first next)
    (rest : Run step next later final) : Run step s (first ++ later) final := by
  induction run with
  | nil s => exact rest
  | cons taken _ ih => exact .cons taken (ih rest)

theorem invariant (inv : σ → Prop) (keeps : ∀ s i o next, inv s → step s i o next → inv next)
    {s final : σ} {history : List (ι × ο)} (run : Run step s history final) (start : inv s) :
    inv final := by
  induction run with
  | nil s => exact start
  | cons taken _ ih => exact ih (keeps _ _ _ _ start taken)

/-- A run is followed by an abstract state that is computed from the history alone. -/
theorem follows (next : τ → ι × ο → τ) (related : σ → τ → Prop)
    (keeps : ∀ s a i o s', related s a → step s i o s' → related s' (next a (i, o)))
    {s final : σ} {history : List (ι × ο)} {a : τ} (run : Run step s history final)
    (start : related s a) : related final (history.foldl next a) := by
  induction run generalizing a with
  | nil s => exact start
  | cons taken _ ih => exact ih (keeps _ _ _ _ _ start taken)

end Run

end SampleFs.Lib

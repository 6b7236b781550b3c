import SampleFs.Lib.Trace

/-!
# Threads over shared state

Any number of threads step in any order over a shared state, and new ones may start at any time. The
rule is rely-guarantee with ghost state: every step of a thread keeps the shared invariant and changes
the shared state only in ways under which what the other threads know stays true.
-/

namespace SampleFs.Lib
variable {σ τ ι γ : Type}

structure Pool (σ τ : Type) where
  shared : σ
  threads : List τ
deriving DecidableEq, Repr

inductive PoolEvent (ι : Type) where
  | start (input : ι)
  | step (thread : Nat)
deriving DecidableEq, Repr

def interleaved (begins : ι → τ) (step : σ → τ → σ → τ → Prop) : System (Pool σ τ) (PoolEvent ι) Unit :=
  fun s event _ s' => match event with
    | .start input => s' = ⟨s.shared, s.threads ++ [begins input]⟩
    | .step i => ∃ t shared t', s.threads[i]? = some t ∧ step s.shared t shared t' ∧
        s' = ⟨shared, s.threads.set i t'⟩

def starting (allowed : ι → Prop) : Pool σ τ → PoolEvent ι → Prop
  | _, .start input => allowed input
  | _, .step _ => True

/-- Steps of the given threads, one after another. -/
def stepAll (move : σ → τ → Option (σ × τ)) : Pool σ τ → List Nat → Option (Pool σ τ)
  | s, [] => some s
  | s, i :: rest =>
      match s.threads[i]? with
      | none => none
      | some t =>
          match move s.shared t with
          | none => none
          | some (shared, t') => stepAll move ⟨shared, s.threads.set i t'⟩ rest

theorem stepAll_run {begins : ι → τ} {step : σ → τ → σ → τ → Prop} {allowed : ι → Prop} {move : σ → τ → Option (σ × τ)}
    (moves : ∀ s t s' t', move s t = some (s', t') → step s t s' t') {s s' : Pool σ τ} {order : List Nat}
    (runs : stepAll move s order = some s') :
    Run (guarded (starting allowed) (interleaved begins step)) s (order.map fun i => (.step i, ())) s' := by
  induction order generalizing s with
  | nil =>
      cases runs
      exact .nil _
  | cons i rest ih =>
      rw [stepAll] at runs
      split at runs
      next => cases runs
      next t found =>
        split at runs
        next => cases runs
        next shared t' moved =>
          exact .cons ⟨trivial, t, shared, t', found, moves _ _ _ _ moved, rfl⟩ (ih runs)

structure RelyGuarantee (begins : ι → τ) (step : σ → τ → σ → τ → Prop) (allowed : ι → Prop)
    (inv : σ → γ → Prop) (rely : σ → γ → σ → γ → Prop) (knows : σ → γ → τ → Prop) : Prop where
  stable : ∀ s g s' g' t, rely s g s' g' → knows s g t → knows s' g' t
  starts : ∀ s g input, inv s g → allowed input → knows s g (begins input)
  steps : ∀ s g t s' t', inv s g → knows s g t → step s t s' t' →
    ∃ g', inv s' g' ∧ rely s g s' g' ∧ knows s' g' t'

variable {begins : ι → τ} {step : σ → τ → σ → τ → Prop} {allowed : ι → Prop} {inv : σ → γ → Prop}
  {rely : σ → γ → σ → γ → Prop} {knows : σ → γ → τ → Prop}

/-- What the invariant and the threads' knowledge amount to in a pool. -/
def PoolValid (inv : σ → γ → Prop) (knows : σ → γ → τ → Prop) (s : Pool σ τ) : Prop :=
  ∃ g, inv s.shared g ∧ ∀ t ∈ s.threads, knows s.shared g t

theorem RelyGuarantee.keeps (rule : RelyGuarantee begins step allowed inv rely knows) {s s' : Pool σ τ}
    {event : PoolEvent ι} {reply : Unit} (valid : PoolValid inv knows s)
    (taken : guarded (starting allowed) (interleaved begins step) s event reply s') : PoolValid inv knows s' := by
  obtain ⟨g, holds, known⟩ := valid
  obtain ⟨promised, taken⟩ := taken
  cases event with
  | start input =>
      obtain rfl := taken
      refine ⟨g, holds, List.forall_mem_append.mpr ⟨known, List.forall_mem_singleton.mpr ?_⟩⟩
      exact rule.starts s.shared g input holds promised
  | step i =>
      obtain ⟨t, shared, t', found, moves, rfl⟩ := taken
      have here := known t (List.mem_of_getElem? found)
      obtain ⟨g', holds', relied, after⟩ := rule.steps s.shared g t shared t' holds here moves
      refine ⟨g', holds', ?_⟩
      intro other member
      rcases List.mem_or_eq_of_mem_set member with old | rfl
      · exact rule.stable _ _ _ _ other relied (known other old)
      · exact after

theorem RelyGuarantee.run (rule : RelyGuarantee begins step allowed inv rely knows) {s : σ} {g : γ} (start : inv s g)
    {history : List (PoolEvent ι × Unit)} {final : Pool σ τ}
    (run : Run (guarded (starting allowed) (interleaved begins step)) ⟨s, []⟩ history final) :
    PoolValid inv knows final := by
  refine run.invariant (PoolValid inv knows) (fun _ _ _ _ => rule.keeps) ⟨g, start, ?_⟩
  intro t member
  cases member

end SampleFs.Lib

import SampleFs.Lib.Exec

/-!
# Servers and what they are specified to answer

A server takes requests one after another, on fuel, and goes from state to state. A specification
answers each request at once from a state of its own. `Simulates.run` carries an agreement about one
request to every sequence of allowed requests.
-/

namespace SampleFs.Lib
variable {ε σ τ ι ο : Type}

abbrev Server (ε σ ι ο : Type) := σ → ι → Nat → Exec ε (ο × σ)

def serveAll (serve : Server ε σ ι ο) : σ → List ι → Nat → Exec ε (List ο × σ)
  | s, [], _ => return ([], s)
  | s, request :: rest, fuel => do
      let (reply, s) ← serve s request fuel
      let (replies, s) ← serveAll serve s rest fuel
      return (reply :: replies, s)

def answerAll (answer : τ → ι → ο × τ) : τ → List ι → List ο × τ
  | a, [] => ([], a)
  | a, request :: rest =>
      let (reply, a) := answer a request
      let (replies, a) := answerAll answer a rest
      (reply :: replies, a)

/-- Every request is allowed in the state that the ones before it lead to. -/
def AllAllowed (answer : τ → ι → ο × τ) (allowed : τ → ι → Prop) : τ → List ι → Prop
  | _, [] => True
  | a, request :: rest => allowed a request ∧ AllAllowed answer allowed (answer a request).2 rest

structure Simulates (serve : Server ε σ ι ο) (answer : τ → ι → ο × τ) (allowed : τ → ι → Prop)
    (related : σ → τ → Prop) : Prop where
  growing : ∀ s request, Exec.Growing (serve s request)
  step : ∀ s a request, related s a → allowed a request → ∃ s',
    Exec.Returns (serve s request) ((answer a request).1, s') ∧ related s' (answer a request).2

theorem serveAll_growing {serve : Server ε σ ι ο} (growing : ∀ s request, Exec.Growing (serve s request))
    (s : σ) (requests : List ι) : Exec.Growing (serveAll serve s requests) := by
  induction requests generalizing s with
  | nil => exact .const _
  | cons request rest ih =>
      refine .bind (growing s request) fun first => ?_
      exact .bind (ih first.2) fun _ => .const _

theorem serveAll_cons {serve : Server ε σ ι ο} (growing : ∀ s request, Exec.Growing (serve s request))
    {s next final : σ} {request : ι} {rest : List ι} {reply : ο} {replies : List ο}
    (first : Exec.Returns (serve s request) (reply, next))
    (others : Exec.Returns (serveAll serve next rest) (replies, final)) :
    Exec.Returns (serveAll serve s (request :: rest)) (reply :: replies, final) := by
  refine Iff.mpr (Exec.returns_bind_of (growing s request) ?_ first) ?_
  · intro answered
    exact .bind (serveAll_growing growing answered.2 rest) fun _ => .const _
  · refine Iff.mpr (Exec.returns_bind_of (serveAll_growing growing next rest) ?_ others) ⟨0, rfl⟩
    exact fun _ => .const _

theorem Simulates.run {serve : Server ε σ ι ο} {answer : τ → ι → ο × τ} {allowed : τ → ι → Prop}
    {related : σ → τ → Prop} (simulates : Simulates serve answer allowed related) {s : σ} {a : τ}
    (start : related s a) {requests : List ι} (all : AllAllowed answer allowed a requests) :
    ∃ s', Exec.Returns (serveAll serve s requests) ((answerAll answer a requests).1, s') ∧
      related s' (answerAll answer a requests).2 := by
  induction requests generalizing s a with
  | nil => exact ⟨s, ⟨0, rfl⟩, start⟩
  | cons request rest ih =>
      obtain ⟨here, later⟩ := all
      obtain ⟨next, first, kept⟩ := simulates.step s a request start here
      obtain ⟨final, others, ends⟩ := ih kept later
      exact ⟨final, serveAll_cons simulates.growing first others, ends⟩

/-- A fact about the state and the requests served so far, kept by every allowed request, holds at the end. -/
theorem Simulates.run_keeps {serve : Server ε σ ι ο} {answer : τ → ι → ο × τ} {allowed : τ → ι → Prop}
    {related : σ → τ → Prop} (simulates : Simulates serve answer allowed related) (fact : List ι → σ → Prop)
    (keeps : ∀ served s a request reply s', related s a → allowed a request → fact served s →
      Exec.Returns (serve s request) (reply, s') → fact (served ++ [request]) s')
    {s : σ} {a : τ} (start : related s a) {served : List ι} (holds : fact served s) {requests : List ι}
    (all : AllAllowed answer allowed a requests) :
    ∃ s', Exec.Returns (serveAll serve s requests) ((answerAll answer a requests).1, s') ∧
      fact (served ++ requests) s' := by
  induction requests generalizing s a served with
  | nil => exact ⟨s, ⟨0, rfl⟩, by rwa [List.append_nil]⟩
  | cons request rest ih =>
      obtain ⟨here, later⟩ := all
      obtain ⟨next, first, kept⟩ := simulates.step s a request start here
      obtain ⟨final, others, ends⟩ := ih kept (keeps served s a request _ next start here holds first) later
      refine ⟨final, serveAll_cons simulates.growing first others, ?_⟩
      rwa [List.append_assoc] at ends

end SampleFs.Lib

import SampleFs.Lib.Exec

/-!
# Executions with a log

An execution together with the accesses it has made, in order. What is logged stays logged when the
execution then stops at a fault.
-/

namespace SampleFs.Lib

structure Logged (ι ε α : Type) where
  log : List ι
  result : Exec ε α

namespace Logged
variable {ι ε α β : Type}

protected def bind (x : Logged ι ε α) (f : α → Logged ι ε β) : Logged ι ε β :=
  match x.result with
  | .ok a => ⟨x.log ++ (f a).log, (f a).result⟩
  | .fail e => ⟨x.log, .fail e⟩
  | .timeout => ⟨x.log, .timeout⟩

instance : Monad (Logged ι ε) where
  pure a := ⟨[], .ok a⟩
  bind := Logged.bind

def tell (access : ι) : Logged ι ε Unit := ⟨[access], .ok ()⟩

def lift (x : Exec ε α) : Logged ι ε α := ⟨[], x⟩

@[simp] theorem log_pure (a : α) : (pure a : Logged ι ε α).log = [] := rfl
@[simp] theorem log_tell (access : ι) : (tell access : Logged ι ε Unit).log = [access] := rfl
@[simp] theorem log_lift (x : Exec ε α) : (lift x : Logged ι ε α).log = [] := rfl
@[simp] theorem result_pure (a : α) : (pure a : Logged ι ε α).result = .ok a := rfl
@[simp] theorem result_tell (access : ι) : (tell access : Logged ι ε Unit).result = .ok () := rfl
@[simp] theorem result_lift (x : Exec ε α) : (lift x : Logged ι ε α).result = x := rfl

@[simp] theorem result_bind (x : Logged ι ε α) (f : α → Logged ι ε β) :
    (x >>= f).result = x.result >>= fun a => (f a).result := by
  show (Logged.bind x f).result = _
  unfold Logged.bind
  cases ends : x.result <;> simp

theorem log_bind (x : Logged ι ε α) (f : α → Logged ι ε β) :
    (x >>= f).log = x.log ++ match x.result with
      | .ok a => (f a).log
      | _ => [] := by
  show (Logged.bind x f).log = _
  unfold Logged.bind
  cases x.result <;> simp

/-- Everything in the log is good if what the first part logs is, and what the second logs after it. -/
theorem forall_log_bind {good : ι → Prop} {x : Logged ι ε α} {f : α → Logged ι ε β} :
    (∀ access ∈ (x >>= f).log, good access) ↔
      (∀ access ∈ x.log, good access) ∧ ∀ a, x.result = .ok a → ∀ access ∈ (f a).log, good access := by
  rw [log_bind, List.forall_mem_append]
  cases x.result <;> simp

end Logged

end SampleFs.Lib

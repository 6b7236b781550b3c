import SampleFs.Lib.Exec

/-!
# Executions that come to an end

An execution settles when with some amount of fuel it returns or stops at a fault that counts as an
answer. A loop settles exactly when it does so at every state it comes to and cannot go on for ever,
which a counter that rises towards a limit rules out.
-/

namespace SampleFs.Lib.Exec
variable {ε α β σ ρ : Type} {good : ε → Prop}

def Settled (good : ε → Prop) : Exec ε α → Prop
  | ok _ => True
  | fail e => good e
  | timeout => False

def Settles (good : ε → Prop) (f : Nat → Exec ε α) : Prop := ∃ fuel, Settled good (f fuel)

theorem settled_bind {x : Exec ε α} {f : α → Exec ε β} :
    Settled good (x >>= f) ↔ Settled good x ∧ ∀ a, x = ok a → Settled good (f a) := by
  cases x <;> simp [Settled]

theorem settled_bind_ok {x : Exec ε α} {f : α → Exec ε β} {a : α} (done : x = ok a) (settled : Settled good (f a)) :
    Settled good (x >>= f) := by
  rw [done, ok_bind]
  exact settled

theorem settled_bind_fail {x : Exec ε α} {f : α → Exec ε β} {e : ε} (fails : x = fail e) (answer : good e) :
    Settled good (x >>= f) := by
  rw [fails, fail_bind]
  exact answer

theorem Below.settled {x y : Exec ε α} (xy : Below x y) (settled : Settled good x) : x = y := by
  rcases xy with rfl | same
  · exact absurd settled id
  · exact same

theorem Below.stays {x y : Exec ε α} (xy : Below x y) (settled : Settled good x) : Settled good y := by
  rw [← xy.settled settled]
  exact settled

theorem Settles.of_le {f : Nat → Exec ε α} (grows : Growing f) (settles : Settles good f) :
    ∃ enough, ∀ fuel, enough ≤ fuel → Settled good (f fuel) := by
  obtain ⟨enough, settled⟩ := settles
  exact ⟨enough, fun _ le => (grows le).stays settled⟩

theorem Settles.ends {f : Nat → Exec ε α} (settles : Settles good f) :
    (∃ a, Returns f a) ∨ ∃ e, good e ∧ ∃ fuel, f fuel = fail e := by
  obtain ⟨fuel, settled⟩ := settles
  cases ends : f fuel with
  | ok a => exact .inl ⟨a, fuel, ends⟩
  | fail e =>
      rw [ends] at settled
      exact .inr ⟨e, settled, fuel, ends⟩
  | timeout =>
      rw [ends] at settled
      exact absurd settled id

theorem Returns.settles {f : Nat → Exec ε α} {a : α} (returns : Returns f a) : Settles good f := by
  obtain ⟨fuel, done⟩ := returns
  exact ⟨fuel, by rw [done]; trivial⟩

theorem settles_const {x : Exec ε α} : Settles good (fun _ => x) ↔ Settled good x :=
  ⟨fun ⟨_, settled⟩ => settled, fun settled => ⟨0, settled⟩⟩

theorem settles_bind {f : Nat → Exec ε α} {g : Nat → α → Exec ε β} (growsF : Growing f)
    (growsG : ∀ a, Growing (fun n => g n a)) :
    Settles good (fun n => f n >>= g n) ↔
      Settles good f ∧ ∀ a, Returns f a → Settles good (fun n => g n a) := by
  constructor
  · intro settles
    obtain ⟨enough, settled⟩ := settles.of_le (.bind growsF growsG)
    refine ⟨⟨enough, (settled_bind.mp (settled enough (Nat.le_refl _))).1⟩, ?_⟩
    intro a returns
    obtain ⟨first, done⟩ := returns.of_le growsF
    have both := settled_bind.mp (settled (max enough first) (Nat.le_max_left ..))
    exact ⟨max enough first, both.2 a (done _ (Nat.le_max_right ..))⟩
  · rintro ⟨settles, rest⟩
    rcases settles.ends with ⟨a, returns⟩ | ⟨e, answer, fuel, fails⟩
    · obtain ⟨first, done⟩ := returns.of_le growsF
      obtain ⟨second, later⟩ := (rest a returns).of_le (growsG a)
      exact ⟨max first second, settled_bind_ok (done _ (Nat.le_max_left ..)) (later _ (Nat.le_max_right ..))⟩
    · exact ⟨fuel, settled_bind_fail fails answer⟩

/-! ## Loops -/

section
variable {body : Nat → σ → Exec ε (Pass σ ρ)}

theorem settles_loop (grows : ∀ s, Growing (fun n => body n s)) {state : σ} :
    Settles good (fun n => loop (body n) n state) ↔ Settles good (fun n => body n state) ∧
      ∀ next, Returns (fun n => body n state) (.again next) → Settles good (fun n => loop (body n) n next) := by
  constructor
  · intro settles
    obtain ⟨enough, settled⟩ := settles.of_le (.loop grows state)
    have once (fuel : Nat) (le : enough ≤ fuel + 1) := settled_bind.mp (settled (fuel + 1) le)
    refine ⟨⟨enough + 1, (once enough (Nat.le_succ _)).1⟩, ?_⟩
    intro next returns
    obtain ⟨first, done⟩ := returns.of_le (grows state)
    have later := (once (max enough first) (by omega)).2 (.again next) (done _ (by omega))
    have more := loop_below (fun s => Below.refl (body (max enough first + 1) s)) (Nat.le_succ (max enough first)) next
    exact ⟨max enough first + 1, more.stays later⟩
  · rintro ⟨settles, rest⟩
    rcases settles.ends with ⟨pass, returns⟩ | ⟨e, answer, fuel, fails⟩
    · obtain ⟨first, done⟩ := returns.of_le (grows state)
      cases pass with
      | again next =>
          obtain ⟨second, later⟩ := rest next returns
          have more := loop_below (fun s => grows s (show second ≤ max first second + 1 by omega))
            (Nat.le_max_right first second) next
          exact ⟨max first second + 1, settled_bind_ok (done _ (by omega)) (more.stays later)⟩
      | done result => exact ⟨first + 1, settled_bind_ok (done _ (Nat.le_succ _)) trivial⟩
    · have kept := (grows state (Nat.le_succ fuel)).settled (show Settled good (body fuel state) by rw [fails]; exact answer)
      exact ⟨fuel + 1, settled_bind_fail (kept.symm.trans fails) answer⟩

variable (body) in
inductive Comes : σ → σ → Prop
  | here (s : σ) : Comes s s
  | again {s next t : σ} : Returns (fun n => body n s) (.again next) → Comes next t → Comes s t

theorem Comes.trans {s t u : σ} (left : Comes body s t) (right : Comes body t u) : Comes body s u := by
  induction left with
  | here => exact right
  | again goes _ ih => exact .again goes (ih right)

theorem Comes.step {s t next : σ} (comes : Comes body s t) (goes : Returns (fun n => body n t) (.again next)) :
    Comes body s next := comes.trans (.again goes (.here next))

def Rises (body : Nat → σ → Exec ε (Pass σ ρ)) (counter : σ → Nat) (limit : Nat) (s : σ) : Prop :=
  ∀ next, Returns (fun n => body n s) (.again next) → counter s < counter next ∧ counter next < limit

/-- A loop whose counter rises on every pass settles exactly when every pass does. -/
theorem loop_settles {counter : σ → Nat} {limit : Nat} (grows : ∀ s, Growing (fun n => body n s)) {start : σ} :
    (Settles good (fun n => loop (body n) n start) ∧ ∀ s, Comes body start s → Rises body counter limit s) ↔
      ∀ s, Comes body start s → Settles good (fun n => body n s) ∧ Rises body counter limit s := by
  constructor
  · rintro ⟨settles, rises⟩ s comes
    refine ⟨?_, rises s comes⟩
    have there : Settles good (fun n => loop (body n) n s) := by
      induction comes with
      | here => exact settles
      | again goes later ih =>
          exact ih (((settles_loop grows).mp settles).2 _ goes) fun s comes => rises s (.again goes comes)
    exact ((settles_loop grows).mp there).1
  · intro all
    refine ⟨?_, fun s comes => (all s comes).2⟩
    induction left : limit - counter start using Nat.strong_induction_on generalizing start with
    | _ left ih =>
        obtain ⟨settles, rises⟩ := all start (.here start)
        refine (settles_loop grows).mpr ⟨settles, ?_⟩
        intro next goes
        have higher := rises next goes
        exact ih (limit - counter next) (by omega) (fun s comes => all s (.again goes comes)) rfl

/-- A loop returns when at each state it comes to the pass returns and leaves or lowers the measure. -/
theorem loop_ends {measure : σ → Nat} {post : ρ → Prop} (grows : ∀ s, Growing (fun n => body n s)) {start : σ}
    (pass : ∀ s, Comes body start s → ∃ p, Returns (fun n => body n s) p ∧ match p with
      | .again next => measure next < measure s
      | .done result => post result) :
    ∃ result, Returns (fun n => loop (body n) n start) result ∧ post result := by
  induction left : measure start using Nat.strong_induction_on generalizing start with
  | _ left ih =>
      obtain ⟨p, returns, ends⟩ := pass start (.here start)
      cases p with
      | again next =>
          obtain ⟨result, later, meets⟩ := ih (measure next) (left ▸ ends)
            (fun s comes => pass s (.again returns comes)) rfl
          exact ⟨result, (returns_loop grows).mpr ⟨_, returns, later⟩, meets⟩
      | done result => exact ⟨result, (returns_loop grows).mpr ⟨_, returns, rfl⟩, ends⟩

end

end SampleFs.Lib.Exec

import Mathlib.Tactic.Ring

/-!
# Executions of imperative code

Code that may stop at a fault, and loops that may not stop at all. A loop is run on fuel; what the
code does is read off by `Returns`, which asks for some amount of fuel. The order `Below` says that
more fuel only turns a timeout into an answer, so `Returns` composes like ordinary evaluation.
-/

namespace SampleFs.Lib

inductive Fault where
  | assertFailed
  | outOfBounds
  | nullPointer
  | useAfterFree
  | divisionByZero
  | uninitialised
  | shiftOverflow
deriving DecidableEq, Repr

inductive Exec (ε α : Type) where
  | ok (value : α)
  | fail (fault : ε)
  | timeout
deriving DecidableEq, Repr

namespace Exec
variable {ε α β : Type}

protected def bind (x : Exec ε α) (f : α → Exec ε β) : Exec ε β :=
  match x with
  | ok a => f a
  | fail e => fail e
  | timeout => timeout

instance : Monad (Exec ε) where
  pure := ok
  bind := Exec.bind

@[simp] theorem pure_eq (a : α) : (pure a : Exec ε α) = ok a := rfl
@[simp] theorem ok_bind (a : α) (f : α → Exec ε β) : (ok a >>= f) = f a := rfl
@[simp] theorem fail_bind (e : ε) (f : α → Exec ε β) : (fail e >>= f) = fail e := rfl
@[simp] theorem timeout_bind (f : α → Exec ε β) : ((timeout : Exec ε α) >>= f) = timeout := rfl

theorem bind_eq_ok {x : Exec ε α} {f : α → Exec ε β} {b : β} :
    (x >>= f) = ok b ↔ ∃ a, x = ok a ∧ f a = ok b := by
  cases x <;> simp

theorem bind_eq_timeout {x : Exec ε α} {f : α → Exec ε β} :
    (x >>= f) = timeout ↔ x = timeout ∨ ∃ a, x = ok a ∧ f a = timeout := by
  cases x <;> simp

theorem bind_ok (x : Exec ε α) : (x >>= fun a => ok a) = x := by
  cases x <;> rfl

instance : LawfulMonad (Exec ε) := LawfulMonad.mk' (Exec ε)
  (fun x => by cases x <;> rfl)
  (fun _ _ => rfl)
  (fun x _ _ => by cases x <;> rfl)

def check (condition : Prop) [Decidable condition] (fault : ε) : Exec ε Unit :=
  if condition then ok () else fail fault

@[simp] theorem check_eq_ok {condition : Prop} [Decidable condition] {fault : ε} :
    check condition fault = ok () ↔ condition := by
  simp [check]

theorem check_pos {condition : Prop} [Decidable condition] (fault : ε) (holds : condition) :
    check condition fault = ok () := check_eq_ok.mpr holds

theorem check_neg {condition : Prop} [Decidable condition] (fault : ε) (fails : ¬ condition) :
    check condition fault = fail fault := by
  simp [check, fails]

theorem check_ne_timeout (condition : Prop) [Decidable condition] (fault : ε) :
    check condition fault ≠ timeout := by
  unfold check
  split <;> simp

theorem foldlM_stays {f : β → α → Exec ε β} {items : List α} {b : β}
    (stays : ∀ a ∈ items, f b a = ok b) : items.foldlM f b = ok b := by
  induction items with
  | nil => rfl
  | cons first rest ih =>
      rw [List.foldlM_cons, stays first List.mem_cons_self, ok_bind]
      exact ih fun a member => stays a (List.mem_cons_of_mem first member)

/-- A fold whose steps leave the state alone or do not return does not get past one that does not. -/
theorem foldlM_stuck {f : β → α → Exec ε β} {items : List α} {b : β}
    (stays : ∀ a ∈ items, f b a = ok b ∨ ∀ next, f b a ≠ ok next)
    (stuck : ∃ a ∈ items, ∀ next, f b a ≠ ok next) (result : β) :
    items.foldlM f b ≠ ok result := by
  intro returns
  induction items with
  | nil =>
      obtain ⟨a, member, _⟩ := stuck
      cases member
  | cons first rest ih =>
      rw [List.foldlM_cons] at returns
      obtain ⟨next, one, others⟩ := bind_eq_ok.mp returns
      rcases stays first List.mem_cons_self with same | never
      · cases same.symm.trans one
        refine ih (fun a member => stays a (List.mem_cons_of_mem first member)) ?_ others
        obtain ⟨a, member, never⟩ := stuck
        rcases List.mem_cons.mp member with rfl | later
        · exact absurd same (never _)
        · exact ⟨a, later, never⟩
      · exact never next one

theorem mapM_eq_map {f : α → Exec ε β} {g : α → β} {items : List α}
    (all : ∀ a ∈ items, f a = ok (g a)) : items.mapM f = ok (items.map g) := by
  induction items with
  | nil => rfl
  | cons first rest ih =>
      rw [List.mapM_cons, all first List.mem_cons_self, ok_bind,
        ih fun a member => all a (List.mem_cons_of_mem first member)]
      rfl

theorem mapM_returns {f : α → Exec ε β} {items : List α} {results : List β}
    (returns : items.mapM f = ok results) : ∀ a ∈ items, ∃ b, f a = ok b := by
  induction items generalizing results with
  | nil => simp
  | cons first rest ih =>
      rw [List.mapM_cons] at returns
      obtain ⟨b, here, later⟩ := bind_eq_ok.mp returns
      obtain ⟨others, there, _⟩ := bind_eq_ok.mp later
      exact List.forall_mem_cons.mpr ⟨⟨b, here⟩, ih there⟩

/-! ## More fuel -/

def Below (x y : Exec ε α) : Prop := x = timeout ∨ x = y

theorem Below.refl (x : Exec ε α) : Below x x := .inr rfl

theorem Below.trans {x y z : Exec ε α} (xy : Below x y) (yz : Below y z) : Below x z := by
  rcases xy with rfl | rfl
  · exact .inl rfl
  · exact yz

theorem Below.bind {x y : Exec ε α} {f g : α → Exec ε β} (xy : Below x y)
    (fg : ∀ a, Below (f a) (g a)) : Below (x >>= f) (y >>= g) := by
  rcases xy with rfl | rfl
  · exact .inl rfl
  · cases x with
    | ok a => exact fg a
    | fail e => exact .refl _
    | timeout => exact .refl _

theorem Below.eq_ok {x y : Exec ε α} {a : α} (xy : Below x y) (done : x = ok a) : y = ok a := by
  rcases xy with rfl | rfl
  · cases done
  · exact done

def Growing (f : Nat → Exec ε α) : Prop := ∀ ⦃m n⦄, m ≤ n → Below (f m) (f n)

theorem Growing.const (x : Exec ε α) : Growing (fun _ => x) := fun _ _ _ => .refl x

theorem Growing.bind {f : Nat → Exec ε α} {g : Nat → α → Exec ε β} (growsF : Growing f)
    (growsG : ∀ a, Growing (fun n => g n a)) : Growing (fun n => f n >>= g n) :=
  fun _ _ le => (growsF le).bind fun a => growsG a le

theorem Growing.ite {condition : Prop} [Decidable condition] {f g : Nat → Exec ε α}
    (growsF : Growing f) (growsG : Growing g) :
    Growing (fun n => if condition then f n else g n) := by
  intro m n le
  by_cases holds : condition
  · simpa [holds] using growsF le
  · simpa [holds] using growsG le

theorem Growing.foldlM {f : Nat → β → α → Exec ε β} (grows : ∀ b a, Growing (fun n => f n b a))
    (items : List α) (b : β) : Growing (fun n => items.foldlM (f n) b) := by
  induction items generalizing b with
  | nil => exact .const _
  | cons a rest ih =>
      simp only [List.foldlM_cons]
      exact Growing.bind (grows b a) ih

def Returns (f : Nat → Exec ε α) (a : α) : Prop := ∃ fuel, f fuel = ok a

theorem Returns.of_le {f : Nat → Exec ε α} (grows : Growing f) {a : α} (returns : Returns f a) :
    ∃ enough, ∀ fuel, enough ≤ fuel → f fuel = ok a := by
  obtain ⟨enough, done⟩ := returns
  exact ⟨enough, fun fuel le => (grows le).eq_ok done⟩

theorem Returns.unique {f : Nat → Exec ε α} (grows : Growing f) {a b : α}
    (left : Returns f a) (right : Returns f b) : a = b := by
  obtain ⟨m, hm⟩ := left.of_le grows
  obtain ⟨n, hn⟩ := right.of_le grows
  have both := (hm (max m n) (Nat.le_max_left ..)).symm.trans (hn (max m n) (Nat.le_max_right ..))
  exact Exec.ok.inj both

theorem Returns.early {f : Nat → Exec ε α} (grows : Growing f) {a : α} (returns : Returns f a) (fuel : Nat) :
    f fuel = timeout ∨ f fuel = ok a := by
  obtain ⟨enough, done⟩ := returns.of_le grows
  rcases grows (Nat.le_max_left fuel enough) with late | same
  · exact .inl late
  · exact .inr (same.trans (done _ (Nat.le_max_right ..)))

theorem Returns.bind_timeout {f : Nat → Exec ε α} (grows : Growing f) {a : α} (returns : Returns f a)
    {g : α → Exec ε β} (never : g a = timeout) (fuel : Nat) : (f fuel >>= g) = timeout := by
  rcases returns.early grows fuel with late | done
  · rw [late]
    rfl
  · rw [done]
    exact never

@[simp] theorem returns_const {x : Exec ε α} {a : α} : Returns (fun _ => x) a ↔ x = ok a :=
  ⟨fun ⟨_, done⟩ => done, fun done => ⟨0, done⟩⟩

theorem returns_bind {f : Nat → Exec ε α} {g : Nat → α → Exec ε β} (growsF : Growing f)
    (growsG : ∀ a, Growing (fun n => g n a)) {b : β} :
    Returns (fun n => f n >>= g n) b ↔ ∃ a, Returns f a ∧ Returns (fun n => g n a) b := by
  constructor
  · rintro ⟨fuel, done⟩
    obtain ⟨a, first, second⟩ := bind_eq_ok.mp done
    exact ⟨a, ⟨fuel, first⟩, ⟨fuel, second⟩⟩
  · rintro ⟨a, first, second⟩
    obtain ⟨m, hm⟩ := first.of_le growsF
    obtain ⟨n, hn⟩ := second.of_le (growsG a)
    refine ⟨max m n, bind_eq_ok.mpr ⟨a, hm _ (Nat.le_max_left ..), hn _ (Nat.le_max_right ..)⟩⟩

theorem returns_bind_of {f : Nat → Exec ε α} {g : Nat → α → Exec ε β} (growsF : Growing f)
    (growsG : ∀ a, Growing (fun n => g n a)) {a : α} (first : Returns f a) {b : β} :
    Returns (fun n => f n >>= g n) b ↔ Returns (fun n => g n a) b := by
  rw [returns_bind growsF growsG]
  constructor
  · rintro ⟨other, same, second⟩
    rwa [Returns.unique growsF first same]
  · intro second
    exact ⟨a, first, second⟩

/-- A fold that returns, with an invariant on the items it has passed. -/
theorem returns_foldlM {f : Nat → β → α → Exec ε β} (grows : ∀ b a, Growing (fun n => f n b a))
    (inv : List α → β → Prop) (items : List α) (b : β) (start : inv [] b)
    (step : ∀ before a after b, items = before ++ a :: after → inv before b →
      ∃ next, Returns (fun n => f n b a) next ∧ inv (before ++ [a]) next) :
    ∃ result, Returns (fun n => items.foldlM (f n) b) result ∧ inv items result := by
  suffices whole : ∀ after before b, items = before ++ after → inv before b →
      ∃ result, Returns (fun n => after.foldlM (f n) b) result ∧ inv items result from whole items [] b rfl start
  intro after
  induction after with
  | nil =>
      intro before b split kept
      rw [List.append_nil] at split
      exact ⟨b, ⟨0, rfl⟩, split ▸ kept⟩
  | cons a after ih =>
      intro before b split kept
      obtain ⟨next, first, kept⟩ := step before a after b split kept
      obtain ⟨result, later, meets⟩ := ih (before ++ [a]) next (by simp [split]) kept
      refine ⟨result, ?_, meets⟩
      simp only [List.foldlM_cons]
      exact (returns_bind (grows b a) fun b => Growing.foldlM grows after b).mpr ⟨next, first, later⟩

end Exec

/-! ## Loops -/

inductive Pass (σ ρ : Type) where
  | again (state : σ)
  | done (result : ρ)
deriving DecidableEq, Repr

namespace Exec
variable {ε σ ρ : Type}

def loop (body : σ → Exec ε (Pass σ ρ)) : Nat → σ → Exec ε ρ
  | 0, _ => timeout
  | fuel + 1, state => body state >>= fun
      | .again next => loop body fuel next
      | .done result => ok result

theorem loop_below {body body' : σ → Exec ε (Pass σ ρ)} (below : ∀ s, Below (body s) (body' s))
    {m n : Nat} (le : m ≤ n) (state : σ) : Below (loop body m state) (loop body' n state) := by
  induction m generalizing n state with
  | zero => exact .inl rfl
  | succ m ih =>
      obtain ⟨n, rfl⟩ : ∃ k, n = k + 1 := ⟨n - 1, by omega⟩
      refine (below state).bind fun pass => ?_
      cases pass with
      | again next => exact ih (Nat.le_of_succ_le_succ le) next
      | done result => exact .refl _

theorem Growing.loop {body : Nat → σ → Exec ε (Pass σ ρ)}
    (grows : ∀ s, Growing (fun n => body n s)) (state : σ) :
    Growing (fun n => Exec.loop (body n) n state) :=
  fun _ _ le => loop_below (fun s => grows s le) le state

theorem returns_done {body : σ → Exec ε (Pass σ ρ)} {state : σ} {result : ρ}
    (leaves : body state = ok (.done result)) : Returns (fun n => loop body n state) result :=
  ⟨1, bind_eq_ok.mpr ⟨_, leaves, rfl⟩⟩

theorem returns_again {body : σ → Exec ε (Pass σ ρ)} {state next : σ} {result : ρ}
    (goes : body state = ok (.again next)) (returns : Returns (fun n => loop body n next) result) :
    Returns (fun n => loop body n state) result := by
  obtain ⟨fuel, runs⟩ := returns
  exact ⟨fuel + 1, bind_eq_ok.mpr ⟨_, goes, runs⟩⟩

theorem returns_loop {body : Nat → σ → Exec ε (Pass σ ρ)} (grows : ∀ s, Growing (fun n => body n s))
    {state : σ} {result : ρ} : Returns (fun n => loop (body n) n state) result ↔
      ∃ p, Returns (fun n => body n state) p ∧ match p with
        | .again next => Returns (fun n => loop (body n) n next) result
        | .done leaves => leaves = result := by
  constructor
  · rintro ⟨fuel, runs⟩
    cases fuel with
    | zero => cases runs
    | succ fuel =>
        obtain ⟨p, first, rest⟩ := bind_eq_ok.mp runs
        refine ⟨p, ⟨fuel + 1, first⟩, ?_⟩
        cases p with
        | again next =>
            exact ⟨fuel + 1, (loop_below (fun s => .refl _) (Nat.le_succ fuel) next).eq_ok rest⟩
        | done leaves => exact Exec.ok.inj rest
  · rintro ⟨p, first, rest⟩
    obtain ⟨enough, always⟩ := first.of_le (grows state)
    cases p with
    | again next =>
        obtain ⟨fuel, runs⟩ := rest
        have later : loop (body (max enough fuel + 1)) (max enough fuel) next = ok result := by
          refine (loop_below (fun s => grows s ?_) (Nat.le_max_right enough fuel) next).eq_ok runs
          exact Nat.le_succ_of_le (Nat.le_max_right enough fuel)
        have now := always (max enough fuel + 1) (Nat.le_succ_of_le (Nat.le_max_left enough fuel))
        exact ⟨max enough fuel + 1, bind_eq_ok.mpr ⟨_, now, later⟩⟩
    | done leaves =>
        subst rest
        exact ⟨enough + 1, bind_eq_ok.mpr ⟨_, always _ (Nat.le_succ enough), rfl⟩⟩

/-- Total correctness: each pass keeps the invariant and lowers the measure, or leaves with a
result that meets the postcondition. -/
theorem loop_returns (body : σ → Exec ε (Pass σ ρ)) (inv : σ → Prop) (measure : σ → Nat)
    (post : ρ → Prop)
    (pass : ∀ s, inv s → ∃ p, body s = ok p ∧ match p with
      | .again next => inv next ∧ measure next < measure s
      | .done result => post result)
    (fuel : Nat) (state : σ) (start : inv state) (enough : measure state < fuel) :
    ∃ result, loop body fuel state = ok result ∧ post result := by
  induction fuel generalizing state with
  | zero => omega
  | succ fuel ih =>
      obtain ⟨p, runs, kept⟩ := pass state start
      cases p with
      | again next =>
          simpa [loop, runs] using ih next kept.1 (by omega)
      | done result => exact ⟨result, by simp [loop, runs], kept⟩

/-- Partial correctness: whatever a loop returns has left from a state with the invariant. -/
theorem loop_post (body : σ → Exec ε (Pass σ ρ)) (inv : σ → Prop) (post : ρ → Prop)
    (pass : ∀ s p, inv s → body s = ok p → match p with
      | .again next => inv next
      | .done result => post result)
    {fuel : Nat} {state : σ} {result : ρ} (start : inv state)
    (returns : loop body fuel state = ok result) : post result := by
  induction fuel generalizing state with
  | zero => cases returns
  | succ fuel ih =>
      obtain ⟨p, runs, rest⟩ := bind_eq_ok.mp returns
      have kept := pass state p start runs
      cases p with
      | again next => exact ih kept rest
      | done leaves =>
          cases rest
          exact kept

theorem loop_fails {body : σ → Exec ε (Pass σ ρ)} {state : σ} {fault : ε}
    (fails : body state = fail fault) (fuel : Nat) (result : ρ) :
    loop body fuel state ≠ ok result := by
  intro returns
  cases fuel with
  | zero => cases returns
  | succ fuel =>
      rw [loop, fails, fail_bind] at returns
      cases returns

theorem loop_diverges (body : σ → Exec ε (Pass σ ρ)) (inv : σ → Prop)
    (pass : ∀ s, inv s → ∃ next, body s = ok (.again next) ∧ inv next)
    (fuel : Nat) (state : σ) (start : inv state) : loop body fuel state = timeout := by
  induction fuel generalizing state with
  | zero => rfl
  | succ fuel ih =>
      obtain ⟨next, runs, kept⟩ := pass state start
      simpa [loop, runs] using ih next kept

end Exec

end SampleFs.Lib

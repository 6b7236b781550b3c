import Mathlib.Algebra.Order.BigOperators.Group.Finset
import SampleFs.Base.NetSock
import SampleFs.Lib.RoundRobin

namespace SampleFs.Proof.NetSock
open Lib Base

-- The connection that the callback under way has counted and neither refused nor passed on yet.
def underWay : MainPhase → Nat
  | .counted _ => 1
  | .accepted _ => 1
  | _ => 0

-- The turn is taken when the handle is written, a step before the turn counter says so.
def turnsTaken (sk : NetSock) : Nat :=
  match sk.main with
  | .written => sk.roundRobinCounter + 1
  | _ => sk.roundRobinCounter

def workerSum (sk : NetSock) (f : NetSockThread → Nat) : Nat := ∑ i ∈ Finset.range sk.numThreads, f (sk.threads i)

def inFlight (sk : NetSock) : Nat := workerSum sk fun skt => skt.pipe.length

def settled (sk : NetSock) : Nat := workerSum sk fun skt => skt.accepted.length + skt.closed.length

/-! ## The books -/

structure ThreadBooks (skt : NetSockThread) : Prop where
  handles : skt.dispatched.length = skt.pipe.length + (skt.accepted.length + skt.closed.length)
  counted : skt.accepted.length = skt.counter + if skt.counting then 1 else 0

-- The counters of the workers only grow, so what was read of them is not above them now.
def MetricBooks (sk : NetSock) : Prop :=
  match sk.metric with
  | .sleeping => True
  | .reading i success => i ≤ sk.numThreads ∧ success ≤ ∑ j ∈ Finset.range i, (sk.threads j).counter
  | .printing success _ failure =>
      success ≤ ∑ j ∈ Finset.range sk.numThreads, (sk.threads j).counter ∧ ∀ value, failure = some value → 0 ≤ value

structure Books (sk : NetSock) : Prop where
  pos : 0 < sk.numThreads
  total : sk.counter = sk.failed + turnsTaken sk + underWay sk.main
  turns : ∀ i, i < sk.numThreads → (sk.threads i).dispatched.length = share sk.numThreads (turnsTaken sk) i
  threads : ∀ i, ThreadBooks (sk.threads i)
  metric : MetricBooks sk

theorem Books.create {numThreads : Nat} (pos : 0 < numThreads) : Books (netSockCreate numThreads) where
  pos := pos
  total := rfl
  turns := fun i _ => (share_zero numThreads i).symm
  threads := fun _ => ⟨rfl, rfl⟩
  metric := trivial

theorem MetricBooks.mono {sk sk' : NetSock} (books : MetricBooks sk) (same : sk'.metric = sk.metric)
    (size : sk'.numThreads = sk.numThreads) (grows : ∀ j, (sk.threads j).counter ≤ (sk'.threads j).counter) :
    MetricBooks sk' := by
  have sums (i : Nat) : ∑ j ∈ Finset.range i, (sk.threads j).counter ≤ ∑ j ∈ Finset.range i, (sk'.threads j).counter :=
    Finset.sum_le_sum fun j _ => grows j
  unfold MetricBooks at books ⊢
  rw [same, size]
  cases phase : sk.metric with
  | sleeping => trivial
  | reading i success =>
      rw [phase] at books
      exact ⟨books.1, books.2.trans (sums i)⟩
  | printing success total failure =>
      rw [phase] at books
      exact ⟨books.1.trans (sums _), books.2⟩

/-! ## Steps of the workers -/

theorem threadNewConnectionCb_books {skt skt' : NetSockThread} {step : ThreadStep} (books : ThreadBooks skt)
    (taken : threadNewConnectionCb skt step = some skt') :
    ThreadBooks skt' ∧ skt'.dispatched = skt.dispatched ∧ skt.counter ≤ skt'.counter := by
  obtain ⟨handles, counted⟩ := books
  unfold threadNewConnectionCb at taken
  split at taken
  next client rest idle pipe =>
    rw [idle] at counted
    rw [pipe, List.length_cons] at handles
    split at taken
    · cases taken
      refine ⟨⟨?_, ?_⟩, rfl, le_refl _⟩
      · simp only [List.length_append, List.length_singleton]
        omega
      · simp only [List.length_append, List.length_singleton, if_true]
        simpa using counted
    · cases taken
      refine ⟨⟨?_, ?_⟩, rfl, le_refl _⟩
      · simp only [List.length_append, List.length_singleton]
        omega
      · simpa [idle] using counted
  next busy =>
    cases taken
    refine ⟨⟨handles, ?_⟩, rfl, Nat.le_succ _⟩
    simpa [busy] using counted
  next => cases taken

theorem thread_books {sk sk' : NetSock} {i : Nat} {step : ThreadStep} (books : Books sk)
    (taken : netStep sk (.thread i step) = some sk') : Books sk' := by
  simp only [netStep] at taken
  split at taken
  · obtain ⟨skt, moved, rfl⟩ := Option.map_eq_some_iff.mp taken
    obtain ⟨kept, same, grows⟩ := threadNewConnectionCb_books (books.threads i) moved
    refine ⟨books.pos, books.total, ?_, ?_, books.metric.mono rfl rfl ?_⟩
    · refine (Function.forall_update_iff sk.threads
        fun j (skt : NetSockThread) => j < _ → skt.dispatched.length = share _ _ j).mpr ⟨?_, ?_⟩
      · rw [same]
        exact books.turns i
      · exact fun j _ => books.turns j
    · exact (Function.forall_update_iff _ fun _ => ThreadBooks).mpr ⟨kept, fun j _ => books.threads j⟩
    · exact (Function.forall_update_iff sk.threads
        fun j (skt : NetSockThread) => (sk.threads j).counter ≤ skt.counter).mpr ⟨grows, fun j _ => le_refl _⟩
  · cases taken

/-! ## Steps of the main loop -/

theorem Books.main {sk : NetSock} (books : Books sk) {counter roundRobin failed : Nat} {phase : MainPhase}
    (same : turnsTaken { sk with counter := counter, roundRobinCounter := roundRobin, main := phase, failed := failed } =
      turnsTaken sk)
    (total : counter = failed + turnsTaken sk + underWay phase) :
    Books { sk with counter := counter, roundRobinCounter := roundRobin, main := phase, failed := failed } where
  pos := books.pos
  total := by
    rw [same]
    exact total
  turns := by
    rw [same]
    exact books.turns
  threads := books.threads
  metric := books.metric

theorem main_books {sk sk' : NetSock} {step : MainStep} (books : Books sk)
    (taken : netStep sk (.main step) = some sk') : Books sk' := by
  have total := books.total
  simp only [netStep, mainNewConnectionCb] at taken
  split at taken
  next status phase =>
    simp only [turnsTaken, phase, underWay] at total
    split at taken
    · cases taken
      exact books
    · cases taken
      apply books.main
      · simp only [turnsTaken, phase]
      · simp only [turnsTaken, phase, underWay]
        omega
  next client succeeds phase =>
    simp only [turnsTaken, phase, underWay] at total
    split at taken
    · cases taken
      apply books.main
      · simp only [turnsTaken, phase]
      · simp only [turnsTaken, phase, underWay]
        omega
    · cases taken
      apply books.main
      · simp only [turnsTaken, phase]
      · simp only [turnsTaken, phase, underWay]
        omega
  next client phase =>
    simp only [turnsTaken, phase, underWay] at total
    have turns := books.turns
    simp only [turnsTaken, phase] at turns
    have index : sk.roundRobinCounter % sk.numThreads < sk.numThreads := Nat.mod_lt _ books.pos
    cases taken
    refine ⟨books.pos, ?_, ?_, ?_, books.metric.mono rfl rfl ?_⟩
    · simp only [turnsTaken, underWay]
      omega
    · refine (Function.forall_update_iff sk.threads
        fun j (skt : NetSockThread) => j < _ → skt.dispatched.length = share _ _ j).mpr ⟨?_, ?_⟩
      · intro inside
        rw [List.length_append, List.length_singleton, turns _ inside]
        simp [turnsTaken, share_succ books.pos _ inside]
      · intro j away inside
        rw [turns j inside]
        simp [turnsTaken, share_succ books.pos _ inside, away]
    · refine (Function.forall_update_iff _ fun _ => ThreadBooks).mpr ⟨?_, fun j _ => books.threads j⟩
      obtain ⟨handles, counted⟩ := books.threads (sk.roundRobinCounter % sk.numThreads)
      refine ⟨?_, counted⟩
      simp only [List.length_append, List.length_singleton]
      omega
    · exact (Function.forall_update_iff sk.threads
        fun j (skt : NetSockThread) => (sk.threads j).counter ≤ skt.counter).mpr ⟨le_refl _, fun j _ => le_refl _⟩
  next phase =>
    simp only [turnsTaken, phase, underWay] at total
    cases taken
    apply books.main
    · simp only [turnsTaken, phase]
    · simp only [turnsTaken, phase, underWay]
      omega
  next => cases taken

/-! ## Steps of the metric thread -/

theorem Books.sum_dispatched {sk : NetSock} (books : Books sk) :
    workerSum sk (fun skt => skt.dispatched.length) = turnsTaken sk := by
  rw [← sum_share books.pos (turnsTaken sk)]
  exact Finset.sum_congr rfl fun i member => books.turns i (Finset.mem_range.mp member)

theorem Books.counters_le {sk : NetSock} (books : Books sk) :
    ∑ j ∈ Finset.range sk.numThreads, (sk.threads j).counter ≤ sk.counter := by
  have each : ∀ j ∈ Finset.range sk.numThreads, (sk.threads j).counter ≤ (sk.threads j).dispatched.length := by
    intro j _
    obtain ⟨handles, counted⟩ := books.threads j
    omega
  calc ∑ j ∈ Finset.range sk.numThreads, (sk.threads j).counter
      ≤ workerSum sk fun skt => skt.dispatched.length := Finset.sum_le_sum each
    _ = turnsTaken sk := books.sum_dispatched
    _ ≤ sk.counter := by
        have := books.total
        omega

theorem netHandleMetric_books {sk : NetSock} {step : MetricStep} {metric : MetricPhase} (books : Books sk)
    (taken : netHandleMetric sk step = some metric) : MetricBooks { sk with metric } := by
  have before := books.metric
  unfold netHandleMetric at taken
  unfold MetricBooks at before ⊢
  split at taken
  next =>
    cases taken
    exact ⟨Nat.zero_le _, Nat.zero_le _⟩
  next i success phase =>
    rw [phase] at before
    obtain ⟨inside, read⟩ := before
    split at taken
    next more =>
      cases taken
      refine ⟨more, ?_⟩
      rw [Finset.sum_range_succ]
      exact Nat.add_le_add_right read _
    next all =>
      cases taken
      obtain rfl : i = sk.numThreads := by omega
      exact ⟨read, by simp⟩
  next phase =>
    rw [phase] at before
    cases taken
    exact before
  next success total phase =>
    rw [phase] at before
    cases taken
    refine ⟨before.1, ?_⟩
    rintro value ⟨⟩
    have bound := before.1.trans books.counters_le
    omega
  next =>
    cases taken
    trivial
  next => cases taken

theorem metric_books {sk sk' : NetSock} {step : MetricStep} (books : Books sk)
    (taken : netStep sk (.metric step) = some sk') : Books sk' := by
  simp only [netStep] at taken
  obtain ⟨metric, moved, rfl⟩ := Option.map_eq_some_iff.mp taken
  exact ⟨books.pos, books.total, books.turns, books.threads, netHandleMetric_books books moved⟩

theorem netSystem_books {sk sk' : NetSock} {step : NetStep} (books : Books sk)
    (taken : netStep sk step = some sk') : Books sk' := by
  cases step with
  | main step => exact main_books books taken
  | thread i step => exact thread_books books taken
  | metric step => exact metric_books books taken

/-- While a callback of the main loop is under way, the counter is ahead by the connection it holds. -/
structure Accounted (sk : NetSock) : Prop where
  balanced : ∀ i j, i < sk.numThreads → j < sk.numThreads →
    (sk.threads i).dispatched.length ≤ (sk.threads j).dispatched.length + 1
  counter : sk.counter = sk.failed + inFlight sk + settled sk + underWay sk.main
  between : sk.main = .waiting → sk.counter = sk.failed + inFlight sk + settled sk
  counted : ∀ i, (sk.threads i).accepted.length =
    (sk.threads i).counter + if (sk.threads i).counting then 1 else 0
  nonnegative : ∀ success total failure, sk.metric = .printing success total (some failure) → 0 ≤ failure

theorem Books.counter {sk : NetSock} (books : Books sk) :
    sk.counter = sk.failed + inFlight sk + settled sk + underWay sk.main := by
  have handles : inFlight sk + settled sk = turnsTaken sk := by
    rw [← books.sum_dispatched, inFlight, settled, workerSum, workerSum, ← Finset.sum_add_distrib]
    exact Finset.sum_congr rfl fun i _ => (books.threads i).handles.symm
  have total := books.total
  omega

theorem Books.accounted {sk : NetSock} (books : Books sk) : Accounted sk := by
  refine ⟨?_, books.counter, ?_, fun i => (books.threads i).counted, ?_⟩
  · intro i j first second
    rw [books.turns i first, books.turns j second]
    exact share_near _ _ _ _
  · intro waiting
    have counter := books.counter
    rwa [waiting] at counter
  · intro success total failure phase
    have metric := books.metric
    rw [MetricBooks, phase] at metric
    exact metric.2 failure rfl

theorem net_accounting {numThreads : Nat} (pos : 0 < numThreads) {history : List (NetStep × Unit)} {sk : NetSock}
    (run : Run netSystem (netSockCreate numThreads) history sk) : Accounted sk := by
  have books : Books sk := run.invariant Books (fun _ _ _ _ => netSystem_books) (Books.create pos)
  exact books.accounted

-- One connection goes through to worker 0; the metric thread reads while the second one is under way.
def oneServed : List (NetStep × Unit) :=
  [(.main (.called 0), ()), (.main (.accepts true), ()), (.main .writes, ()), (.main .advances, ()),
    (.thread 0 (.accepts true), ()), (.thread 0 .counts, ()), (.metric .starts, ()), (.metric .reads, ()),
    (.main (.called 0), ()), (.metric .reads, ()), (.metric .reads, ()), (.metric .readsFailure, ())]

theorem net_accounting_two : ∃ sk, Run netSystem (netSockCreate 2) oneServed sk ∧ Accounted sk := by
  obtain ⟨sk, run⟩ : ∃ sk, Run netSystem (netSockCreate 2) oneServed sk :=
    ⟨_, .cons rfl (.cons rfl (.cons rfl (.cons rfl (.cons rfl (.cons rfl (.cons rfl (.cons rfl (.cons rfl
      (.cons rfl (.cons rfl (.cons rfl (.nil _))))))))))))⟩
  exact ⟨sk, run, net_accounting (by decide) run⟩

end SampleFs.Proof.NetSock

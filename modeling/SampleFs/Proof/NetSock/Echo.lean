import Mathlib.Algebra.Order.BigOperators.Group.List
import Mathlib.Data.Multiset.OrderedMonoid
import SampleFs.Base.NetSockEcho

namespace SampleFs.Proof.NetSock
open Lib Base

/-- The blocks that each event leaves with nobody to free them. -/
def lostBlocks : EchoEvent → Nat
  | .connected status accepts => if status = -1 then 0 else if accepts then 2 else 1
  | .notified (.pending _) => 2
  | .notified _ => 1
  | .read _ (.data _ taken) => if taken then 0 else 2
  | .read _ _ => 0
  | .written _ _ _ => 0

def queueBlocks (queue : List QueuedWrite) : Multiset Nat := (queue.map fun q => q.req ::ₘ {q.base}).sum

def connBlocks (conns : List EchoConn) : Multiset Nat := (conns.map fun conn => queueBlocks conn.queue).sum

def queueLengths (conns : List EchoConn) : Nat := (conns.map fun conn => conn.queue.length).sum

theorem card_queueBlocks (queue : List QueuedWrite) : (queueBlocks queue).card = 2 * queue.length := by
  induction queue with
  | nil => rfl
  | cons q rest ih =>
      rw [queueBlocks, List.map_cons, List.sum_cons, Multiset.card_add, ← queueBlocks, ih, List.length_cons]
      simp only [Multiset.card_cons, Multiset.card_singleton]
      omega

theorem card_connBlocks (conns : List EchoConn) : (connBlocks conns).card = 2 * queueLengths conns := by
  induction conns with
  | nil => rfl
  | cons conn rest ih =>
      rw [connBlocks, List.map_cons, List.sum_cons, Multiset.card_add, ← connBlocks, ih, card_queueBlocks,
        queueLengths, queueLengths, List.map_cons, List.sum_cons, Nat.mul_add]

theorem queueBlocks_cons (q : QueuedWrite) (rest : List QueuedWrite) :
    queueBlocks (q :: rest) = q.req ::ₘ q.base ::ₘ queueBlocks rest := by
  rw [queueBlocks, List.map_cons, List.sum_cons, Multiset.cons_add, Multiset.singleton_add, ← queueBlocks]

theorem queueBlocks_append (queue : List QueuedWrite) (q : QueuedWrite) :
    queueBlocks (queue ++ [q]) = q.req ::ₘ q.base ::ₘ queueBlocks queue := by
  rw [← queueBlocks_cons, queueBlocks, List.map_append, List.sum_append, add_comm, queueBlocks, List.map_cons, List.sum_cons]
  simp

theorem queueBlocks_le {conns : List EchoConn} {conn : EchoConn} (member : conn ∈ conns) :
    queueBlocks conn.queue ≤ connBlocks conns := by
  apply List.le_sum_of_mem
  exact List.mem_map_of_mem member

-- Replacing a connection trades its blocks for those of the new one.
theorem connBlocks_set {conns : List EchoConn} {i : Nat} {conn : EchoConn} (at_ : conns[i]? = some conn)
    (changed : EchoConn) :
    connBlocks (conns.set i changed) + queueBlocks conn.queue = connBlocks conns + queueBlocks changed.queue := by
  induction conns generalizing i with
  | nil => cases at_
  | cons first rest ih =>
      cases i with
      | zero =>
          cases at_
          simp only [connBlocks, List.set_cons_zero, List.map_cons, List.sum_cons]
          rw [add_right_comm, add_comm (queueBlocks changed.queue), add_right_comm]
      | succ i =>
          have later := ih at_
          simp only [connBlocks] at later
          simp only [connBlocks, List.set_cons_succ, List.map_cons, List.sum_cons]
          rw [add_assoc, later, add_assoc]

/-! ## What a connection keeps -/

structure Loaded (heap : Heap EchoBlock) (q : QueuedWrite) (bytes : List UInt8) : Prop where
  request : heap.cell q.req = some (.request q.base q.len)
  buffer : heap.cell q.base = some (.buffer bytes)
  length : bytes.length = q.len

/-- What was sent and what waits in the queue was received in this order; if no write has failed,
nothing else was received. -/
structure Echoes (heap : Heap EchoBlock) (conn : EchoConn) : Prop where
  texts : ∃ waiting : List (List UInt8), List.Forall₂ (Loaded heap) conn.queue waiting ∧
    (conn.sent ++ waiting.flatten).Sublist conn.received ∧
    (conn.whole = true → conn.received = conn.sent ++ waiting.flatten)

theorem forall₂_loaded_frame {heap heap' : Heap EchoBlock} {queue : List QueuedWrite} {waiting : List (List UInt8)}
    (loaded : List.Forall₂ (Loaded heap) queue waiting)
    (same : ∀ a ∈ queueBlocks queue, heap'.cell a = heap.cell a) : List.Forall₂ (Loaded heap') queue waiting := by
  induction loaded with
  | nil => exact .nil
  | @cons q bytes rest texts first _ ih =>
      rw [queueBlocks_cons] at same
      constructor
      · constructor
        · rw [same q.req (Multiset.mem_cons_self _ _)]
          exact first.request
        · rw [same q.base (Multiset.mem_cons_of_mem (Multiset.mem_cons_self _ _))]
          exact first.buffer
        · exact first.length
      · apply ih
        intro a member
        exact same a (Multiset.mem_cons_of_mem (Multiset.mem_cons_of_mem member))

theorem Echoes.frame {heap heap' : Heap EchoBlock} {conn : EchoConn} (echoes : Echoes heap conn)
    (same : ∀ a ∈ queueBlocks conn.queue, heap'.cell a = heap.cell a) : Echoes heap' conn := by
  obtain ⟨waiting, loaded, order, whole⟩ := echoes.texts
  exact ⟨waiting, forall₂_loaded_frame loaded same, order, whole⟩

/-! ## The ledger of the server -/

structure EchoBooks (heap : Heap EchoBlock) (conns : List EchoConn) (gone : Multiset Nat) : Prop where
  ledger : Ledger heap (gone + connBlocks conns)
  echoes : ∀ conn ∈ conns, Echoes heap conn

theorem mem_owned {conns : List EchoConn} (gone : Multiset Nat) {conn : EchoConn} (member : conn ∈ conns) {a : Nat}
    (block : a ∈ queueBlocks conn.queue) : a ∈ gone + connBlocks conns :=
  Multiset.mem_add.mpr (.inr (Multiset.mem_of_le (queueBlocks_le member) block))

namespace EchoBooks
variable {heap : Heap EchoBlock} {conns : List EchoConn} {gone : Multiset Nat}

theorem start : EchoBooks echoStart.heap echoStart.conns 0 := ⟨.empty, by simp [echoStart]⟩

theorem malloc (books : EchoBooks heap conns gone) (content : EchoBlock) :
    EchoBooks (heap.malloc content).2 conns (heap.next ::ₘ gone) := by
  constructor
  · rw [Multiset.cons_add]
    exact books.ledger.malloc content
  · intro conn member
    apply (books.echoes conn member).frame
    intro a block
    exact books.ledger.malloc_other content (mem_owned gone member block)

theorem free {a : Nat} (books : EchoBooks heap conns (a ::ₘ gone)) :
    ∃ left, heap.free a = .ok left ∧ EchoBooks left conns gone := by
  have ledger := books.ledger
  rw [Multiset.cons_add] at ledger
  obtain ⟨left, freed, kept, others⟩ := ledger.free
  refine ⟨left, freed, kept, ?_⟩
  intro conn member
  apply (books.echoes conn member).frame
  intro b block
  apply others
  intro same
  have absent := (Multiset.nodup_cons.mp ledger.once).1
  exact absent (same ▸ mem_owned gone member block)

theorem accept (books : EchoBooks heap conns gone) (client : Nat) :
    EchoBooks heap (conns ++ [⟨client, false, [], [], [], true⟩]) gone := by
  constructor
  · have same : connBlocks (conns ++ [⟨client, false, [], [], [], true⟩]) = connBlocks conns := by
      rw [connBlocks, List.map_append, List.sum_append]
      exact add_zero _
    rw [same]
    exact books.ledger
  · intro conn member
    rcases List.mem_append.mp member with old | new
    · exact books.echoes conn old
    · cases List.mem_singleton.mp new
      exact ⟨[], .nil, List.nil_sublist _, fun _ => rfl⟩

/-- A connection may be replaced, and blocks may pass between it and those that nobody frees. -/
theorem update (books : EchoBooks heap conns gone) {i : Nat} {conn changed : EchoConn} {left : Multiset Nat}
    (at_ : conns[i]? = some conn) (blocks : left + queueBlocks changed.queue = gone + queueBlocks conn.queue)
    (kept : Echoes heap changed) : EchoBooks heap (conns.set i changed) left := by
  have same : left + connBlocks (conns.set i changed) = gone + connBlocks conns := by
    apply add_right_cancel (b := queueBlocks conn.queue)
    rw [add_assoc, connBlocks_set at_ changed, add_left_comm, blocks, add_left_comm, ← add_assoc]
  constructor
  · rw [same]
    exact books.ledger
  · intro other member
    rcases List.mem_or_eq_of_mem_set member with old | new
    · exact books.echoes other old
    · rw [new]
      exact kept

end EchoBooks

/-! ## The callbacks -/

variable {s : EchoServer} {gone : Multiset Nat}

def ServerBooks (s : EchoServer) (lost : Nat) : Prop := ∃ gone, EchoBooks s.heap s.conns gone ∧ gone.card = lost

theorem mainNewConnectionCb_echo (books : EchoBooks s.heap s.conns gone) (status : Int) (accepts : Bool) :
    ServerBooks (s.mainNewConnectionCb status accepts) (gone.card + lostBlocks (.connected status accepts)) := by
  simp only [EchoServer.mainNewConnectionCb, lostBlocks]
  by_cases failed : status = -1
  · rw [if_pos failed, if_pos failed]
    exact ⟨gone, books, rfl⟩
  · rw [if_neg failed, if_neg failed]
    have client := books.malloc .client
    cases accepts with
    | false => exact ⟨_, client, Multiset.card_cons _ _⟩
    | true =>
        refine ⟨_, client.malloc .notify, ?_⟩
        rw [Multiset.card_cons, Multiset.card_cons]
        rfl

theorem threadNewConnectionCb_echo (books : EchoBooks s.heap s.conns gone) (notice : Notice) :
    ServerBooks (s.threadNewConnectionCb notice) (gone.card + lostBlocks (.notified notice)) := by
  have buffer := books.malloc (.buffer [])
  cases notice with
  | error => exact ⟨_, buffer, Multiset.card_cons _ _⟩
  | noPending => exact ⟨_, buffer, Multiset.card_cons _ _⟩
  | pending accepts =>
      have client := buffer.malloc .client
      have two (a b : Nat) : (a ::ₘ b ::ₘ gone).card = gone.card + 2 := by
        rw [Multiset.card_cons, Multiset.card_cons]
      cases accepts with
      | false => exact ⟨_, client, two _ _⟩
      | true => exact ⟨_, client.accept _, two _ _⟩

theorem readCb_echo (books : EchoBooks s.heap s.conns gone) {i : Nat} {conn : EchoConn}
    (at_ : s.conns[i]? = some conn) (outcome : ReadOutcome) :
    ∃ s', s.readCb i conn outcome = .ok s' ∧ ServerBooks s' (gone.card + lostBlocks (.read i outcome)) := by
  have member : conn ∈ s.conns := List.mem_of_getElem? at_
  cases outcome with
  | nothing =>
      obtain ⟨heap, freed, kept⟩ := (books.malloc (.buffer [])).free
      refine ⟨⟨heap, s.conns⟩, ?_, gone, kept, rfl⟩
      exact Exec.bind_eq_ok.mpr ⟨heap, freed, rfl⟩
  | error =>
      obtain ⟨heap, freed, kept⟩ := (books.malloc (.buffer [])).free
      refine ⟨_, Exec.bind_eq_ok.mpr ⟨heap, freed, rfl⟩, gone, kept.update at_ rfl ?_, rfl⟩
      exact ⟨(kept.echoes conn member).texts⟩
  | data bytes taken =>
      have buffer := books.malloc (.buffer bytes)
      have request := buffer.malloc (.request s.heap.next bytes.length)
      obtain ⟨waiting, loaded, order, whole⟩ := (request.echoes conn member).texts
      cases taken with
      | false =>
          refine ⟨_, rfl, _, request.update at_ rfl ⟨waiting, loaded, ?_, ?_⟩, ?_⟩
          · exact order.trans (List.sublist_append_left _ _)
          · exact fun never => absurd never Bool.false_ne_true
          · rw [Multiset.card_cons, Multiset.card_cons]
            rfl
      | true =>
          refine ⟨_, rfl, gone, request.update at_ ?_ ⟨waiting ++ [bytes], ?_, ?_, ?_⟩, rfl⟩
          · rw [queueBlocks_append]
            simp only [Multiset.add_cons, Multiset.cons_add]
            rfl
          · apply List.rel_append loaded
            refine .cons ⟨?_, ?_, rfl⟩ .nil
            · exact Function.update_self _ _ _
            · have held : s.heap.next ∈ s.heap.next ::ₘ gone + connBlocks s.conns :=
                Multiset.mem_add.mpr (.inl (Multiset.mem_cons_self _ _))
              exact (buffer.ledger.malloc_other _ held).trans (Function.update_self _ _ _)
          · rw [List.flatten_append, ← List.append_assoc, List.flatten_singleton]
            exact order.append (List.Sublist.refl bytes)
          · intro untouched
            rw [List.flatten_append, ← List.append_assoc, List.flatten_singleton]
            exact congrArg (· ++ bytes) (whole untouched)

theorem writeCb_echo (books : EchoBooks s.heap s.conns gone) {i : Nat} {conn : EchoConn}
    (at_ : s.conns[i]? = some conn) (queued : conn.queue ≠ []) (status : Int) (sent : Nat) :
    ∃ s', writeCb s i conn status sent = .ok s' ∧ ServerBooks s' gone.card := by
  obtain ⟨waiting, loaded, order, whole⟩ := (books.echoes conn (List.mem_of_getElem? at_)).texts
  cases queue : conn.queue with
  | nil => exact absurd queue queued
  | cons q rest =>
      rw [queue] at loaded
      cases loaded with
      | @cons _ bytes _ texts first others =>
          let out := if status = 0 then bytes.take q.len else (bytes.take q.len).take sent
          have all : bytes.take q.len = bytes := List.take_of_length_le (Nat.le_of_eq first.length)
          have part : out.Sublist bytes := by
            by_cases done : status = 0
            · rw [show out = bytes.take q.len from if_pos done]
              exact List.take_sublist _ _
            · rw [show out = (bytes.take q.len).take sent from if_neg done]
              exact (List.take_sublist _ _).trans (List.take_sublist _ _)
          have popped : EchoBooks s.heap (s.conns.set i { conn with
              queue := rest
              sent := conn.sent ++ out
              whole := conn.whole && decide (status = 0) }) (q.base ::ₘ q.req ::ₘ gone) := by
            refine books.update at_ ?_ ⟨texts, others, ?_, ?_⟩
            · rw [queue, queueBlocks_cons]
              simp only [Multiset.add_cons, Multiset.cons_add]
              exact Multiset.cons_swap _ _ _
            · rw [List.flatten_cons, ← List.append_assoc] at order
              exact (((List.Sublist.refl _).append part).append (List.Sublist.refl _)).trans order
            · intro both
              obtain ⟨untouched, done⟩ := Bool.and_eq_true_iff.mp both
              have sends : out = bytes := (if_pos (of_decide_eq_true done)).trans all
              rw [whole untouched, List.flatten_cons, ← List.append_assoc, sends]
          obtain ⟨heap, freedBuffer, once⟩ := popped.free
          obtain ⟨heap', freedRequest, twice⟩ := once.free
          have frees : freeWriteReq s.heap q.req = .ok heap' := by
            simp only [freeWriteReq, Heap.load, first.request, Exec.ok_bind, freedBuffer, freedRequest]
          refine ⟨⟨heap', s.conns.set i _⟩, ?_, gone, twice, rfl⟩
          simp only [writeCb, queue, loadBuffer, Heap.load, first.buffer, Exec.ok_bind, Exec.pure_eq, frees]
          rfl

/-! ## Runs -/

theorem echoStep_books {event : EchoEvent} {lost : Nat} (books : ServerBooks s lost) (allowed : EchoAllowed s event) :
    ∃ s', echoStep s event = .ok s' ∧ ServerBooks s' (lost + lostBlocks event) := by
  obtain ⟨gone, kept, rfl⟩ := books
  cases event with
  | connected status accepts => exact ⟨_, rfl, mainNewConnectionCb_echo kept status accepts⟩
  | notified notice => exact ⟨_, rfl, threadNewConnectionCb_echo kept notice⟩
  | read i outcome =>
      obtain ⟨conn, at_, _, _⟩ := allowed
      simp only [echoStep, at_]
      exact readCb_echo kept at_ outcome
  | written i status sent =>
      obtain ⟨conn, at_, queued⟩ := allowed
      simp only [echoStep, at_]
      exact writeCb_echo kept at_ queued status sent

/-- The heap holds what is queued and what was lost on the way here, and nothing else; every callback
the loop may make returns; and a client is sent back what it sent, in order. -/
structure EchoSafe (s : EchoServer) (lost : Nat) : Prop where
  returns : ∀ event, EchoAllowed s event → ∃ s', echoStep s event = .ok s'
  live : ∃ blocks, Ledger s.heap blocks ∧ blocks.card = lost + 2 * queueLengths s.conns
  order : ∀ conn ∈ s.conns, Echoes s.heap conn

theorem ServerBooks.safe {lost : Nat} (books : ServerBooks s lost) : EchoSafe s lost := by
  obtain ⟨gone, kept, size⟩ := id books
  refine ⟨?_, ⟨_, kept.ledger, ?_⟩, kept.echoes⟩
  · intro event allowed
    obtain ⟨s', returns, _⟩ := echoStep_books books allowed
    exact ⟨s', returns⟩
  · rw [Multiset.card_add, card_connBlocks, size]

def lostIn (history : List (EchoEvent × Unit)) : Nat := history.foldl (fun lost entry => lost + lostBlocks entry.1) 0

theorem echo_safe {history : List (EchoEvent × Unit)} {s : EchoServer}
    (run : Run (guarded EchoAllowed echoSystem) echoStart history s) : EchoSafe s (lostIn history) := by
  apply ServerBooks.safe
  refine run.follows (fun lost entry => lost + lostBlocks entry.1) ServerBooks ?_ ⟨0, .start, rfl⟩
  intro s lost event _ s' books taken
  obtain ⟨allowed, steps⟩ := taken
  obtain ⟨next, returns, kept⟩ := echoStep_books books allowed
  cases steps.symm.trans returns
  exact kept

-- A client sends two bytes and then three; the first write succeeds, and the second fails after a byte.
def twoEchoed : List (EchoEvent × Unit) :=
  [(.connected 0 true, ()), (.notified (.pending true), ()), (.read 0 (.data [104, 105] true), ()),
    (.read 0 (.data [1, 2, 3] true), ()), (.written 0 0 0, ()), (.read 0 .error, ()), (.written 0 (-125) 1, ())]

theorem echo_safe_two : ∃ s, Run (guarded EchoAllowed echoSystem) echoStart twoEchoed s ∧
    EchoSafe s 4 ∧ s.conns.map (·.sent) = [[104, 105, 1]] := by
  obtain ⟨s, run, sent⟩ : ∃ s, Run (guarded EchoAllowed echoSystem) echoStart twoEchoed s ∧
      s.conns.map (·.sent) = [[104, 105, 1]] := by
    refine ⟨_, .cons ⟨trivial, rfl⟩ (.cons ⟨trivial, rfl⟩ (.cons ⟨?_, rfl⟩ (.cons ⟨?_, rfl⟩ (.cons ⟨?_, rfl⟩
      (.cons ⟨?_, rfl⟩ (.cons ⟨?_, rfl⟩ (.nil _))))))), rfl⟩
    · exact ⟨_, rfl, rfl, by simp⟩
    · exact ⟨_, rfl, rfl, by simp⟩
    · exact ⟨_, rfl, by simp⟩
    · exact ⟨_, rfl, rfl, by simp⟩
    · exact ⟨_, rfl, by simp⟩
  exact ⟨s, run, echo_safe run, sent⟩

end SampleFs.Proof.NetSock

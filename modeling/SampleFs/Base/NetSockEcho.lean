import SampleFs.Lib.Heap
import SampleFs.Lib.Trace

/-!
# What `base/net_sock.c` does with the data

Every client is read with `alloc_buffer` and `read_cb`, and what was read is written back to it. The
event loop decides what happens and in which order; the callbacks own the memory.
-/

namespace SampleFs.Base
open Lib

inductive EchoBlock where
  | client
  | notify
  | buffer (bytes : List UInt8)
  | request (base len : Nat)
deriving DecidableEq, Repr

/-- A write that the loop has taken, with its own copy of the `uv_buf_t`. -/
structure QueuedWrite where
  req : Nat
  base : Nat
  len : Nat
deriving DecidableEq, Repr

/-- `received` and `sent` record the bytes of the connection, and `whole` that no write has failed. -/
structure EchoConn where
  client : Nat
  closed : Bool
  queue : List QueuedWrite
  received : List UInt8
  sent : List UInt8
  whole : Bool
deriving DecidableEq, Repr

structure EchoServer where
  heap : Heap EchoBlock
  conns : List EchoConn

inductive Notice where
  | error
  | noPending
  | pending (accepts : Bool)
deriving DecidableEq, Repr

inductive ReadOutcome where
  | data (bytes : List UInt8) (taken : Bool)
  | nothing
  | error
deriving DecidableEq, Repr

inductive EchoEvent where
  | connected (status : Int) (accepts : Bool)
  | notified (notice : Notice)
  | read (i : Nat) (outcome : ReadOutcome)
  | written (i : Nat) (status : Int) (sent : Nat)
deriving DecidableEq, Repr

namespace EchoServer

def update (s : EchoServer) (heap : Heap EchoBlock) (i : Nat) (conn : EchoConn) : EchoServer :=
  ⟨heap, s.conns.set i conn⟩

-- Neither the handle nor the request of `uv_write2` has a callback that frees it.
def mainNewConnectionCb (s : EchoServer) (status : Int) (accepts : Bool) : EchoServer :=
  if status = -1 then s
  else
    let (_, heap) := s.heap.malloc .client
    if accepts then { s with heap := (heap.malloc .notify).2 } else { s with heap }

-- The buffer that the notification was read into is not freed.
def threadNewConnectionCb (s : EchoServer) (notice : Notice) : EchoServer :=
  let (_, heap) := s.heap.malloc (.buffer [])
  match notice with
  | .error => { s with heap }
  | .noPending => { s with heap }
  | .pending accepts =>
      let (client, heap) := heap.malloc .client
      if accepts then ⟨heap, s.conns ++ [⟨client, false, [], [], [], true⟩]⟩ else { s with heap }

/-- `alloc_buffer` and then `read_cb`. A write that `uv_write` does not take has no callback. -/
def readCb (s : EchoServer) (i : Nat) (conn : EchoConn) : ReadOutcome → Exec Fault EchoServer
  | .data bytes taken =>
      let (base, heap) := s.heap.malloc (.buffer bytes)
      let (req, heap) := heap.malloc (.request base bytes.length)
      let conn := { conn with received := conn.received ++ bytes }
      if taken then return s.update heap i { conn with queue := conn.queue ++ [⟨req, base, bytes.length⟩] }
      else return s.update heap i { conn with whole := false }
  | .nothing => do
      let (base, heap) := s.heap.malloc (.buffer [])
      let heap ← heap.free base
      return { s with heap }
  | .error => do
      let (base, heap) := s.heap.malloc (.buffer [])
      let heap ← heap.free base
      return s.update heap i { conn with closed := true }

end EchoServer

def loadBuffer (heap : Heap EchoBlock) (base : Nat) : Exec Fault (List UInt8) := do
  match ← heap.load base with
  | .buffer bytes => return bytes
  | _ => .fail .uninitialised

def freeWriteReq (heap : Heap EchoBlock) (req : Nat) : Exec Fault (Heap EchoBlock) := do
  match ← heap.load req with
  | .request base _ =>
      let heap ← heap.free base
      heap.free req
  | _ => .fail .uninitialised

/-- The loop has sent from the buffer, all of it if the status is 0, and calls `write_cb`. -/
def writeCb (s : EchoServer) (i : Nat) (conn : EchoConn) (status : Int) (sent : Nat) : Exec Fault EchoServer :=
  match conn.queue with
  | [] => .fail .nullPointer
  | q :: rest => do
      let bytes ← loadBuffer s.heap q.base
      let out := if status = 0 then bytes.take q.len else (bytes.take q.len).take sent
      let heap ← freeWriteReq s.heap q.req
      return s.update heap i { conn with
        queue := rest
        sent := conn.sent ++ out
        whole := conn.whole && decide (status = 0) }

def echoStep (s : EchoServer) : EchoEvent → Exec Fault EchoServer
  | .connected status accepts => return s.mainNewConnectionCb status accepts
  | .notified notice => return s.threadNewConnectionCb notice
  | .read i outcome =>
      match s.conns[i]? with
      | none => .fail .nullPointer
      | some conn => s.readCb i conn outcome
  | .written i status sent =>
      match s.conns[i]? with
      | none => .fail .nullPointer
      | some conn => writeCb s i conn status sent

/-- What the event loop promises: a closed stream is not read any more, `nread` is positive where there
is data, and a write has one callback, after those before it. -/
def EchoAllowed (s : EchoServer) : EchoEvent → Prop
  | .connected _ _ => True
  | .notified _ => True
  | .read i outcome => ∃ conn, s.conns[i]? = some conn ∧ conn.closed = false ∧
      ∀ bytes taken, outcome = .data bytes taken → bytes ≠ []
  | .written i _ _ => ∃ conn, s.conns[i]? = some conn ∧ conn.queue ≠ []

def echoStart : EchoServer := ⟨.empty, []⟩

def echoSystem : System EchoServer EchoEvent Unit := fun s event _ s' => echoStep s event = .ok s'

end SampleFs.Base

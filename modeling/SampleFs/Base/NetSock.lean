import Mathlib.Logic.Function.Basic
import SampleFs.Lib.Trace

/-!
# `base/net_sock.c`

The main loop, the worker threads and the metric thread run side by side, so each callback is cut
where another thread can see the difference: at every access to a counter and at every handle that
enters or leaves a pipe. A client handle is named by the number of the connection it belongs to.
-/

namespace SampleFs.Base
open Lib

/-- `pipe` holds the handles written to the worker and not yet read by it. The lists after `counting`
record what happened and are read by nobody. -/
structure NetSockThread where
  pipe : List Nat
  counter : Nat
  counting : Bool
  dispatched : List Nat
  accepted : List Nat
  closed : List Nat
deriving DecidableEq, Repr

inductive MainPhase where
  | waiting
  | counted (client : Nat)
  | accepted (client : Nat)
  | written
deriving DecidableEq, Repr

/-- Where `net_handle_metric` stands. The two reads of `sk->counter` in its last line are arguments
of one call, so either may come first. -/
inductive MetricPhase where
  | sleeping
  | reading (i success : Nat)
  | printing (success : Nat) (total failure : Option Int)
deriving DecidableEq, Repr

-- `failed` records the accepts of the main loop that failed.
structure NetSock where
  numThreads : Nat
  threads : Nat → NetSockThread
  counter : Nat
  roundRobinCounter : Nat
  main : MainPhase
  metric : MetricPhase
  failed : Nat

inductive MainStep where
  | called (status : Int)
  | accepts (succeeds : Bool)
  | writes
  | advances
deriving DecidableEq, Repr

def mainNewConnectionCb (sk : NetSock) (step : MainStep) : Option NetSock :=
  match sk.main, step with
  | .waiting, .called status =>
      if status = -1 then some sk
      else some { sk with counter := sk.counter + 1, main := .counted sk.counter }
  | .counted client, .accepts succeeds =>
      if succeeds then some { sk with main := .accepted client }
      else some { sk with failed := sk.failed + 1, main := .waiting }
  | .accepted client, .writes =>
      let index := sk.roundRobinCounter % sk.numThreads
      let skt := sk.threads index
      let skt := { skt with pipe := skt.pipe ++ [client], dispatched := skt.dispatched ++ [client] }
      some { sk with threads := Function.update sk.threads index skt, main := .written }
  | .written, .advances => some { sk with roundRobinCounter := sk.roundRobinCounter + 1, main := .waiting }
  | _, _ => none

inductive ThreadStep where
  | accepts (succeeds : Bool)
  | counts
deriving DecidableEq, Repr

-- One read callback for each handle, which is pending then.
def threadNewConnectionCb (skt : NetSockThread) (step : ThreadStep) : Option NetSockThread :=
  match skt.counting, step, skt.pipe with
  | false, .accepts succeeds, client :: rest =>
      if succeeds then some { skt with pipe := rest, accepted := skt.accepted ++ [client], counting := true }
      else some { skt with pipe := rest, closed := skt.closed ++ [client] }
  | true, .counts, _ => some { skt with counter := skt.counter + 1, counting := false }
  | _, _, _ => none

inductive MetricStep where
  | starts
  | reads
  | readsTotal
  | readsFailure
  | prints
deriving DecidableEq, Repr

def netHandleMetric (sk : NetSock) (step : MetricStep) : Option MetricPhase :=
  match sk.metric, step with
  | .sleeping, .starts => some (.reading 0 0)
  | .reading i success, .reads =>
      if i < sk.numThreads then some (.reading (i + 1) (success + (sk.threads i).counter))
      else some (.printing success none none)
  | .printing success none failure, .readsTotal => some (.printing success (some sk.counter) failure)
  | .printing success total none, .readsFailure =>
      some (.printing success total (some ((sk.counter : Int) - success)))
  | .printing _ (some _) (some _), .prints => some .sleeping
  | _, _ => none

inductive NetStep where
  | main (step : MainStep)
  | thread (i : Nat) (step : ThreadStep)
  | metric (step : MetricStep)
deriving DecidableEq, Repr

def netStep (sk : NetSock) : NetStep → Option NetSock
  | .main step => mainNewConnectionCb sk step
  | .thread i step =>
      if i < sk.numThreads then
        (threadNewConnectionCb (sk.threads i) step).map fun skt =>
          { sk with threads := Function.update sk.threads i skt }
      else none
  | .metric step => (netHandleMetric sk step).map fun metric => { sk with metric }

-- `calloc` zeroes the counters.
def netSockCreate (numThreads : Nat) : NetSock where
  numThreads := numThreads
  threads := fun _ => ⟨[], 0, false, [], [], []⟩
  counter := 0
  roundRobinCounter := 0
  main := .waiting
  metric := .sleeping
  failed := 0

def netSystem : System NetSock NetStep Unit := fun sk step _ sk' => netStep sk step = some sk'

end SampleFs.Base

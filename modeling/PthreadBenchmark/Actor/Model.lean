import PthreadBenchmark.CyclicQueue.Model
import PthreadBenchmark.Shared.Ring
import PthreadBenchmark.Shared.Transition
import Mathlib.Data.Fintype.Basic

/-! # The actor of `queue_cyclic.c`

Senders hand messages to `actor_send_to`, and `actor_runner` takes them in batches. The
critical sections are single actions, as both run under the mutex of the actor. -/

namespace PthreadBenchmark.Actor

open CyclicQueue

/-- A message is the `int` of one allocation; `id` numbers the allocations. -/
structure Msg where
  id : ℕ
  val : ℤ
  deriving DecidableEq, Repr

/-- Program points of `actor_runner`, with its current vector and `exit_flag`. Outside
its bounds `buf` has no cell: the runner is then `crashed`, as after an `exit`. -/
inductive Runner where
  | atLock
  | asleep
  | batch (v : VectorT Msg) (exitFlag : Bool)
  | leftLoop
  | crashed (v : VectorT Msg)

/-- `senders` holds the messages still to be sent. `accepted` and `processed` are history:
the messages `queue_enqueue` took and those the runner has popped, oldest first. -/
structure State (ι : Type*) where
  senders : ι → List ℤ
  allocated : ℕ
  queue : QueueCycl Msg
  runner : Runner
  buf : ℤ → ℕ
  accepted : List Msg
  processed : List Msg

variable {ι : Type*}

/-- `pthread_cond_signal`: a sleeping runner goes back to its test. -/
def signal : Runner → Runner
  | .asleep => .atLock
  | r => r

/-- `actor_send_to` for a new message; the result of `queue_enqueue` is ignored. -/
def actorSendTo (s : State ι) (data : ℤ) : State ι :=
  let msg : Msg := ⟨s.allocated, data⟩
  let r := queueEnqueue s.queue (some msg)
  { s with
    allocated := s.allocated + 1
    queue := r.2
    runner := signal s.runner
    accepted := if r.1 = 1 then s.accepted ++ [msg] else s.accepted }

def sendStep [DecidableEq ι] (s : State ι) (i : ι) : Option (State ι) :=
  match s.senders i with
  | [] => none
  | data :: rest =>
    some (actorSendTo { s with senders := Function.update s.senders i rest } data)

/-- The body of the inner loop of `actor_runner` for one message. -/
def process (s : State ι) (v : VectorT Msg) (exitFlag : Bool) (data : Msg) : State ι :=
  let s := { s with processed := s.processed ++ [data] }
  if data.val = -1 then { s with runner := .batch v true }
  else if 0 ≤ data.val ∧ data.val < 50 then
    { s with
      buf := Function.update s.buf data.val (s.buf data.val + 1)
      runner := .batch v exitFlag }
  else { s with runner := .crashed v }

/-- One action of `actor_runner`: the critical section, one message, or the test of
`exit_flag` behind the batch. -/
def runnerStep (s : State ι) : Option (State ι) :=
  match s.runner with
  | .atLock =>
    if queueIsEmpty s.queue then some { s with runner := .asleep }
    else
      match queueDequeueall s.queue with
      | .returned v q => some { s with queue := q, runner := .batch v false }
      | _ => some { s with runner := .crashed (vectorInit 0) }
  | .asleep => none
  | .batch v exitFlag =>
    match vectorPopBack v with
    | (none, _) => some { s with runner := if exitFlag then .leftLoop else .atLock }
    | (some data, v) => some (process s v exitFlag data)
  | .leftLoop => none
  | .crashed _ => none

inductive Action (ι : Type*) where
  | send (i : ι)
  | runner
  | wakeup
  deriving DecidableEq, Repr

/-- `wakeup` is a spurious return of `pthread_cond_wait`. -/
def step [DecidableEq ι] (s : State ι) : Action ι → Option (State ι)
  | .send i => sendStep s i
  | .runner => runnerStep s
  | .wakeup =>
    match s.runner with
    | .asleep => some { s with runner := .atLock }
    | _ => none

def initial (bufSize : ℕ) (messages : ι → List ℤ) : State ι where
  senders := messages
  allocated := 0
  queue := queueInit (bufSize + 1)
  runner := .atLock
  buf _ := 0
  accepted := []
  processed := []

/-- Any senders with any messages, in any order. -/
def actors [DecidableEq ι] (bufSize : ℕ) (messages : ι → List ℤ) :
    System (State ι) (Action ι) where
  init := initial bufSize messages
  step := step

/-! ## The program -/

/-- `none` is `main`, which sends its `-1` last; `some i` is the sender thread `i`. -/
def messagesOf (nSenders : ℕ) : Option (Fin nSenders) → List ℤ
  | none => [-1]
  | some _ => (List.range 50).map fun k : ℕ => (k : ℤ)

/-- `main` joins the senders before it sends. -/
def programStep {n : ℕ} (s : State (Option (Fin n))) :
    Action (Option (Fin n)) → Option (State (Option (Fin n)))
  | .send none => if ∀ i, s.senders (some i) = [] then sendStep s none else none
  | a => step s a

def program (bufSize nSenders : ℕ) :
    System (State (Option (Fin nSenders))) (Action (Option (Fin nSenders))) where
  init := initial bufSize (messagesOf nSenders)
  step := programStep

/-- The indices for which the final loop of `actor_runner` prints its error. -/
def selfCheck (nSenders : ℕ) (buf : ℤ → ℕ) : List ℕ :=
  (List.range 50).filter fun i => buf i ≠ nSenders

/-! ## Contents -/

/-- What the runner still has to pop from its vector, oldest first. -/
def vectorContents (v : VectorT Msg) : List Msg :=
  ((List.range v.tail).map v.buf).filterMap id

def State.vectorContents (s : State ι) : List Msg :=
  match s.runner with
  | .batch v _ | .crashed v => Actor.vectorContents v
  | _ => []

def State.queueContents (s : State ι) : List Msg :=
  (window s.queue.cyclicBuf s.queue.maxSize s.queue.front (queueSize s.queue)).filterMap id

end PthreadBenchmark.Actor

import PthreadBenchmark.Shared.Pthread
import Mathlib.Data.Int.Notation

/-! # The netlink requests of `libudp_splice.c`

Threads call `udp_splice_add` on one handle. The kernel acknowledges the requests in the order in
which they were sent, each at any time behind its `sendto`; a `recv` before that fails, as the
socket does not block. -/

namespace PthreadBenchmark.UdpSplice

variable {n : ℕ}

/-- The call number `k` of the thread `i` is known by `i` and `k`. -/
abbrev CallId (n : ℕ) := Fin n × ℕ

/-- How many calls each thread makes, whose `sendto` fails, and the `error` in the acknowledgement
of the kernel. -/
structure Calls (n : ℕ) where
  count : Fin n → ℕ
  sendFails : CallId n → Bool
  answer : CallId n → ℤ

/-- What `recv` returns, and the fields of the message that are looked at. -/
structure Res where
  len : ℤ
  nlmsgType : ℤ
  error : ℤ
  deriving DecidableEq, Repr

/-- `NLMSG_ERROR`. -/
def nlmsgError : ℤ := 2

/-- `sizeof(res)`. -/
def sizeofRes : ℤ := 36

inductive Result where
  | sendFailed
  | recvFailed
  | badMessage
  | failed (errno : ℤ)
  | ok
  deriving DecidableEq, Repr

/-- The end of `udp_splice_add`, behind a `recv` that has not failed. -/
def result (res : Res) : Result :=
  if res.len ≠ sizeofRes ∨ res.nlmsgType ≠ nlmsgError then .badMessage
  else if res.error ≠ 0 then .failed (-res.error)
  else .ok

/-- A call that has returned, and the request for which the message was generated that it has
received. -/
structure Return (n : ℕ) where
  call : CallId n
  result : Result
  ack : Option (CallId n)
  deriving DecidableEq, Repr

/-- The requests that the kernel has still to acknowledge, the acknowledgements that are queued on
the socket, and as history the calls that have returned. -/
structure Shared (n : ℕ) where
  unanswered : List (CallId n)
  queue : List (CallId n)
  returned : List (Return n)
  deriving DecidableEq, Repr

inductive Mutex where
  | lock
  deriving DecidableEq, Repr

/-- Points of `udp_splice_add`. -/
inductive AddPc (n : ℕ) where
  | lock
  | send
  | sendUnlock
  | sendFailed
  | recv
  | recvUnlock (ack : Option (CallId n))
  | result (ack : Option (CallId n))
  deriving DecidableEq, Repr

inductive Point (n : ℕ) where
  | kernel
  | add (call : CallId n) (pc : AddPc n)
  deriving DecidableEq, Repr

/-- The thread `none` is the kernel. -/
abbrev Tid (n : ℕ) := Option (Fin n)

variable (calls : Calls n) (s : Shared n)

/-- The message for the acknowledgement of a request, cut off to the size of `res`. -/
def Calls.message (ack : CallId n) : Res := ⟨sizeofRes, nlmsgError, calls.answer ack⟩

/-- The kernel acknowledges the oldest request. -/
def Shared.acknowledge : Shared n :=
  match s.unanswered with
  | [] => s
  | request :: rest => { s with unanswered := rest, queue := s.queue ++ [request] }

def Shared.record (call : CallId n) (result : Result) (ack : Option (CallId n)) : Shared n :=
  { s with returned := s.returned ++ [⟨call, result, ack⟩] }

def udpSpliceAdd (call : CallId n) : AddPc n → Op (Tid n) (Shared n) (Point n) Mutex Empty
  | .lock => if call.2 < calls.count call.1 then .lock .lock (.add call .send) else .halt
  | .send =>
    if calls.sendFails call then .run s (.add call .sendUnlock)
    else .run { s with unanswered := s.unanswered ++ [call] } (.add call .recv)
  | .sendUnlock => .unlock .lock (.add call .sendFailed)
  | .sendFailed => .run (s.record call .sendFailed none) (.add (call.1, call.2 + 1) .lock)
  | .recv => .run { s with queue := s.queue.tail } (.add call (.recvUnlock s.queue.head?))
  | .recvUnlock ack => .unlock .lock (.add call (.result ack))
  | .result none => .run (s.record call .recvFailed none) (.add (call.1, call.2 + 1) .lock)
  | .result (some ack) =>
    .run (s.record call (result (calls.message ack)) (some ack)) (.add (call.1, call.2 + 1) .lock)

def code : Point n → Op (Tid n) (Shared n) (Point n) Mutex Empty
  | .kernel => .run s.acknowledge .kernel
  | .add call pc => udpSpliceAdd calls s call pc

def start : Tid n → Point n
  | none => .kernel
  | some i => .add (i, 0) .lock

def program : System (Config (Tid n) (Shared n) (Point n) Mutex Empty) (Action (Tid n)) :=
  Pthread.program (code calls) ⟨[], [], []⟩ start

end PthreadBenchmark.UdpSplice

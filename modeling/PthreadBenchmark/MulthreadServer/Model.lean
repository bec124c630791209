import PthreadBenchmark.Shared.CString
import PthreadBenchmark.Shared.Pthread

/-! # The message buffer of `multhread_server.c`

`thread_connect` puts what a client has sent into the one buffer `msg`, `thread_proc` writes the
buffer to all clients and clears it, `thread_route` prints it. The table `clients` is that of the
clients that are connected. -/

namespace PthreadBenchmark.MulthreadServer

open CString

def maxClients : ℕ := 100

/-- `sizeof(msg)`. -/
def msgSize : ℕ := 100

/-- `sizeof(str)`. -/
def strSize : ℕ := 50

/-- What a successful `read` has put into `str`, without zero bytes. -/
structure Read where
  str : List UInt8
  pos : 0 < str.length
  le_size : str.length ≤ strSize
  zero_not_mem : 0 ∉ str

/-- `received` and `written` are history: the reads that have been copied into `msg`, and what has
been written to the client in each place of the table. -/
structure Shared where
  msg : List UInt8
  received : List (List UInt8)
  written : ℕ → List (List UInt8)

inductive Tid where
  | connect
  | proc
  | route
  deriving DecidableEq, Repr

instance : Fintype Tid := ⟨{.connect, .proc, .route}, fun t => by cases t <;> simp⟩

inductive Mutex where
  | mut
  deriving DecidableEq, Repr

/-- Points of the three threads; `thread_connect` has the reads to come at hand. -/
inductive Point where
  | connect (reads : List Read)
  | connectCopy (r : Read) (reads : List Read)
  | connectUnlock (reads : List Read)
  | procLock
  | procTest
  | procWrite (i len : ℕ)
  | procUnlock
  | routeLock
  | routePrint
  | routeUnlock

/-- `strncpy(msg, str, n)`. -/
def copyMsg (s : Shared) (r : Read) : Shared :=
  { s with msg := strncpy s.msg r.str r.str.length, received := s.received ++ [r.str] }

/-- `write(clients[i], msg, len)`. -/
def writeMsg (s : Shared) (i len : ℕ) : Shared :=
  { s with written := Function.update s.written i (s.written i ++ [s.msg.take len]) }

/-- `memset(msg, 0, sizeof(msg))`. -/
def clearMsg (s : Shared) : Shared := { s with msg := List.replicate msgSize 0 }

/-- Without reads to come `thread_connect` stays in `epoll_wait`. -/
def code (clients : ℕ → ℤ) (s : Shared) : Point → Op Tid Shared Point Mutex Empty
  | .connect [] => .halt
  | .connect (r :: reads) => .lock .mut (.connectCopy r reads)
  | .connectCopy r reads => .run (copyMsg s r) (.connectUnlock reads)
  | .connectUnlock reads => .unlock .mut (.connect reads)
  | .procLock => .lock .mut .procTest
  | .procTest => .run s (if 0 < strlen s.msg then .procWrite 0 (strlen s.msg) else .procUnlock)
  | .procWrite i len =>
    if i < maxClients then
      .run (if 0 < clients i then writeMsg s i len else s) (.procWrite (i + 1) len)
    else .run (clearMsg s) .procUnlock
  | .procUnlock => .unlock .mut .procLock
  | .routeLock => .lock .mut .routePrint
  | .routePrint => .run s .routeUnlock
  | .routeUnlock => .unlock .mut .routeLock

def start (reads : List Read) : Tid → Point
  | .connect => .connect reads
  | .proc => .procLock
  | .route => .routeLock

/-- Global arrays start with zeros. -/
def initial : Shared := ⟨List.replicate msgSize 0, [], fun _ => []⟩

def program (clients : ℕ → ℤ) (reads : List Read) :
    System (Config Tid Shared Point Mutex Empty) (Action Tid) :=
  Pthread.program (code clients) initial (start reads)

end PthreadBenchmark.MulthreadServer

import PthreadBenchmark.Shared.Pthread
import Mathlib.Data.Int.Notation

/-! # The monitor of `skynet_main.c`

Workers, the timer thread and the socket thread run with one call of `skynet_shutdown`. What
`skynet_message_dispatch` and `skynet_socket_poll` return is given for each call. -/

namespace PthreadBenchmark.Skynet

/-- `struct monitor`. -/
structure Monitor where
  count : ℤ
  sleep : ℤ
  quit : ℤ
  deriving DecidableEq, Repr

inductive Mutex where
  | mutex
  deriving DecidableEq, Repr

inductive Cond where
  | cond
  deriving DecidableEq, Repr

/-- The two threads that call `wakeup`. -/
inductive Poller where
  | timer
  | socket
  deriving DecidableEq, Repr

/-- Points of `thread_worker`. -/
inductive WorkerPc where
  | loopLock
  | loopTest
  | loopUnlock
  | breakUnlock
  | dispatch
  | sleepLock
  | sleepInc
  | sleepTest
  | sleepDec
  | sleepUnlock
  | exited
  deriving DecidableEq, Repr

/-- Points of `thread_timer` and `thread_socket`, with those of `wakeup`. -/
inductive PollerPc where
  | loopLock
  | loopTest
  | loopUnlock
  | breakUnlock
  | poll
  | wakeupLock (busy : ℤ)
  | wakeupTest (busy : ℤ)
  | wakeupSignal
  | wakeupUnlock
  | exited
  deriving DecidableEq, Repr

/-- Points of `skynet_shutdown`. -/
inductive ShutdownPc where
  | lock
  | setQuit
  | broadcast
  | unlock
  | returned
  deriving DecidableEq, Repr

/-- `k` is the number of rounds of a loop that are over. -/
inductive Point (n : ℕ) where
  | worker (i : Fin n) (k : ℕ) (pc : WorkerPc)
  | poller (which : Poller) (k : ℕ) (pc : PollerPc)
  | shutdown (pc : ShutdownPc)
  deriving DecidableEq, Repr

inductive Service where
  | timer
  | socket
  | shutdown
  deriving DecidableEq, Repr

instance : Fintype Service :=
  ⟨{.timer, .socket, .shutdown}, fun service => by cases service <;> simp⟩

/-- The workers, and the threads beside them. -/
abbrev Tid (n : ℕ) := Fin n ⊕ Service

variable {n : ℕ}

abbrev Step (n : ℕ) := Op (Tid n) Monitor (Point n) Mutex Cond

def threadWorker (dispatch : Fin n → ℕ → ℤ) (m : Monitor) (i : Fin n) (k : ℕ) :
    WorkerPc → Step n
  | .loopLock => .lock .mutex (.worker i k .loopTest)
  | .loopTest => .run m (.worker i k (if m.quit ≠ 0 then .breakUnlock else .loopUnlock))
  | .loopUnlock => .unlock .mutex (.worker i k .dispatch)
  | .breakUnlock => .unlock .mutex (.worker i k .exited)
  | .dispatch =>
    .run m (if dispatch i k ≠ 0 then .worker i k .sleepLock else .worker i (k + 1) .loopLock)
  | .sleepLock => .lock .mutex (.worker i k .sleepInc)
  | .sleepInc => .run { m with sleep := m.sleep + 1 } (.worker i k .sleepTest)
  | .sleepTest =>
    if m.quit = 0 then .wait .cond .mutex (.worker i k .sleepDec)
    else .run m (.worker i k .sleepDec)
  | .sleepDec => .run { m with sleep := m.sleep - 1 } (.worker i k .sleepUnlock)
  | .sleepUnlock => .unlock .mutex (.worker i (k + 1) .loopLock)
  | .exited => .halt

def threadPoller (poll : ℕ → ℤ) (m : Monitor) (which : Poller) (k : ℕ) : PollerPc → Step n
  | .loopLock => .lock .mutex (.poller which k .loopTest)
  | .loopTest => .run m (.poller which k (if m.quit ≠ 0 then .breakUnlock else .loopUnlock))
  | .loopUnlock => .unlock .mutex (.poller which k .poll)
  | .breakUnlock => .unlock .mutex (.poller which k .exited)
  | .poll =>
    match which with
    | .timer => .run m (.poller which k (.wakeupLock (m.count - 1)))
    | .socket =>
      if poll k = 0 then .run m (.poller which k .exited)
      else if poll k < 0 then .run m (.poller which (k + 1) .loopLock)
      else .run m (.poller which k (.wakeupLock 0))
  | .wakeupLock busy => .lock .mutex (.poller which k (.wakeupTest busy))
  | .wakeupTest busy =>
    .run m (.poller which k (if m.count - busy ≤ m.sleep then .wakeupSignal else .wakeupUnlock))
  | .wakeupSignal => .signal .cond (.poller which k .wakeupUnlock)
  | .wakeupUnlock => .unlock .mutex (.poller which (k + 1) .loopLock)
  | .exited => .halt

def skynetShutdown (m : Monitor) : ShutdownPc → Step n
  | .lock => .lock .mutex (.shutdown .setQuit)
  | .setQuit => .run { m with quit := 1 } (.shutdown .broadcast)
  | .broadcast => .broadcast .cond (.shutdown .unlock)
  | .unlock => .unlock .mutex (.shutdown .returned)
  | .returned => .halt

def code (dispatch : Fin n → ℕ → ℤ) (poll : ℕ → ℤ) (m : Monitor) : Point n → Step n
  | .worker i k pc => threadWorker dispatch m i k pc
  | .poller which k pc => threadPoller poll m which k pc
  | .shutdown pc => skynetShutdown m pc

def start : Tid n → Point n
  | .inl i => .worker i 0 .loopLock
  | .inr .timer => .poller .timer 0 .loopLock
  | .inr .socket => .poller .socket 0 .loopLock
  | .inr .shutdown => .shutdown .lock

/-- `skynet_start` with `n` workers, and one call of `skynet_shutdown`. -/
def program (dispatch : Fin n → ℕ → ℤ) (poll : ℕ → ℤ) :
    System (Config (Tid n) Monitor (Point n) Mutex Cond) (Action (Tid n)) :=
  Pthread.program (code dispatch poll) ⟨n, 0, 0⟩ start

end PthreadBenchmark.Skynet

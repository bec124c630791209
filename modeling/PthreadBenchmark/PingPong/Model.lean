import PthreadBenchmark.Shared.Pthread

/-! # The two threads of `ping_pong.c` -/

namespace PthreadBenchmark.PingPong

inductive Ready where
  | pingInit
  | pingReady
  | pongReady
  deriving DecidableEq, Repr

inductive Player where
  | ping
  | pong
  deriving DecidableEq, Repr

instance : Fintype Player := ⟨{.ping, .pong}, fun who => by cases who <;> simp⟩

inductive Line where
  | ping (i : ℕ)
  | pong (i : ℕ)
  deriving DecidableEq, Repr

structure Shared where
  ready : Ready
  output : List Line
  deriving DecidableEq, Repr

inductive Mutex where
  | thrCondLock
  deriving DecidableEq, Repr

inductive Cond where
  | thrCond
  deriving DecidableEq, Repr

/-- Points of `thread_ping` and `thread_pong` up to their loops, and of the loop that is the same
in both. -/
inductive Point where
  | pingLock
  | pingReady
  | pingWait
  | pongLock
  | pongTest
  | pongUnlock
  | pongSignal
  | pongWait
  | print (who : Player) (i : ℕ)
  | signal (who : Player) (i : ℕ)
  | test (who : Player) (i : ℕ)
  | exited (who : Player)
  deriving DecidableEq, Repr

def line : Player → ℕ → Line
  | .ping, i => .ping i
  | .pong, i => .pong i

def code (maxCount : ℕ) (s : Shared) : Point → Op Player Shared Point Mutex Cond
  | .pingLock => .lock .thrCondLock .pingReady
  | .pingReady => .run { s with ready := .pingReady } .pingWait
  | .pingWait => .wait .thrCond .thrCondLock (.print .ping 0)
  | .pongLock => .lock .thrCondLock .pongTest
  | .pongTest => .run s (if s.ready = .pingReady then .pongSignal else .pongUnlock)
  | .pongUnlock => .unlock .thrCondLock .pongLock
  | .pongSignal => .signal .thrCond .pongWait
  | .pongWait => .wait .thrCond .thrCondLock (.print .pong 0)
  | .print who i => .run { s with output := s.output ++ [line who (i + 1)] } (.signal who (i + 1))
  | .signal who i => .signal .thrCond (.test who i)
  | .test who i =>
    if i = maxCount then .unlock .thrCondLock (.exited who)
    else .wait .thrCond .thrCondLock (.print who i)
  | .exited _ => .halt

def start : Player → Point
  | .ping => .pingLock
  | .pong => .pongLock

def program (maxCount : ℕ) : System (Config Player Shared Point Mutex Cond) (Action Player) :=
  Pthread.signalledProgram (code maxCount) ⟨.pingInit, []⟩ start

end PthreadBenchmark.PingPong

import PthreadBenchmark.Skynet.Start
import PthreadBenchmark.Shared.PthreadInterrupts

/-! # The signal handlers of `skynet_main.c`

`skynet_signal_init` has `SIGTERM` handled by `skynet_shutdown` and four other signals by
`skynet_coredump`, which calls `skynet_shutdown` too. Both run on the thread that has got the
signal, at any point of its code. -/

namespace PthreadBenchmark.Skynet

open Pthread

inductive Signal where
  | sigterm
  | sigsegv
  | sigill
  | sigfpe
  | sigabrt
  deriving DecidableEq, Repr

/-- Points of a handler: those of `skynet_shutdown`, and behind them those of `skynet_coredump`. -/
inductive HandlerPc where
  | shutdown (pc : ShutdownPc)
  | releaseAll
  | setDefault
  | raise
  | raised
  deriving DecidableEq, Repr

inductive HostPoint (n : ℕ) where
  | thread (P : ProcessPoint n)
  | handler (sig : Signal) (pc : HandlerPc)
  deriving DecidableEq, Repr

/-- The process, the signals that have their default action again, and whether a signal has ended
the process. -/
structure Host where
  process : Process
  defaults : List Signal
  exited : Bool
  deriving DecidableEq, Repr

variable {n : ℕ}

abbrev HostStep (n : ℕ) := Op (Thread n) Host (HostPoint n) Mutex Cond

def Host.setProcess (s : Host) (process : Process) : Host := { s with process := process }

def Host.setMonitor (s : Host) (m : Monitor) : Host := s.setProcess (s.process.setMonitor m)

/-- A point of `skynet_shutdown` in the handler of the signal. -/
def handlerPoint (sig : Signal) : Point n → HostPoint n
  | .shutdown pc => .handler sig (.shutdown pc)
  | p => .thread (.thread p)

/-- The handler of the signal. For `SIGTERM` it returns behind `skynet_shutdown`. Any other signal
is raised once more; it is masked until the handler returns, and ends the process then. -/
def handler (s : Host) (sig : Signal) : HandlerPc → HostStep n
  | .shutdown .returned => if sig = .sigterm then .halt else .run s (.handler sig .releaseAll)
  | .shutdown pc => (skynetShutdown s.process.monitor pc).map some s.setMonitor (handlerPoint sig)
  | .releaseAll => .run s (.handler sig .setDefault)
  | .setDefault => .run { s with defaults := sig :: s.defaults } (.handler sig .raise)
  | .raise => .run s (.handler sig .raised)
  | .raised => .run { s with exited := true } (.handler sig .raised)

def hostCode (dispatch : Fin n → ℕ → ℤ) (poll : ℕ → ℤ) (s : Host) : HostPoint n → HostStep n
  | .thread P => (processCode dispatch poll s.process P).map id s.setProcess .thread
  | .handler sig pc => handler s sig pc

/-- The threads of the process; nobody but a handler calls `skynet_shutdown`. -/
def hostStart : Thread n → HostPoint n
  | some (.inr .shutdown) => .thread (.thread (.shutdown .returned))
  | t => .thread (processStart t)

/-- A thread goes on, a handler goes on, or a thread gets a signal. -/
inductive HostAction (n : ℕ) where
  | thread (a : Action (Thread n))
  | handler (t : Thread n)
  | deliver (t : Thread n) (sig : Signal)
  deriving DecidableEq

def HostPoint.Handles (sig : Signal) : HostPoint n → Prop
  | .handler sig' _ => sig' = sig
  | .thread _ => False

instance (sig : Signal) : DecidablePred (HostPoint.Handles (n := n) sig) := fun P => by
  unfold HostPoint.Handles
  split <;> infer_instance

variable (dispatch : Fin n → ℕ → ℤ) (poll : ℕ → ℤ)

/-- The state of the threads with the handlers on them. -/
abbrev HostState (n : ℕ) := Interrupted (Thread n) Host (HostPoint n) Mutex Cond

/-- A signal reaches a thread that is there, unless the thread handles the same signal; no other
signal is masked. -/
def Deliverable (c : HostState n) (t : Thread n) (sig : Signal) : Prop :=
  (∀ P ∈ c.frames t, ¬ P.Handles sig) ∧
    ¬ Halted (hostCode dispatch poll) c.base.shared (c.base.threads t)

instance (c : HostState n) (t : Thread n) (sig : Signal) :
    Decidable (Deliverable dispatch poll c t sig) :=
  inferInstanceAs (Decidable (_ ∧ _))

def hostStep (c : HostState n) : HostAction n → Option (HostState n)
  | .thread (.run t w) => stepThread (hostCode dispatch poll) c t w
  | .thread (.spurious t) => stepSpurious (hostCode dispatch poll) c t
  | .handler t => stepHandler (hostCode dispatch poll) c t
  | .deliver t sig =>
    if Deliverable dispatch poll c t sig then
      if sig ∈ c.base.shared.defaults then
        some { c with base := { c.base with shared := { c.base.shared with exited := true } } }
      else some (interrupt c t (.handler sig (.shutdown .lock)))
    else none

/-- The process that runs `skynet_start` with `n` workers, until a signal ends it. -/
def host : System (HostState n) (HostAction n) where
  init := ⟨(Pthread.program (hostCode dispatch poll) ⟨⟨⟨n, 0, 0⟩, 0, false, false⟩, [], false⟩
    hostStart).init, fun _ => []⟩
  step c a := if c.base.shared.exited then none else hostStep dispatch poll c a

end PthreadBenchmark.Skynet

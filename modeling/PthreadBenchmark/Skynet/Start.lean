import PthreadBenchmark.Skynet.Model
import PthreadBenchmark.Shared.PthreadRules

/-! # The life of the monitor in `skynet_start`

`skynet_start` creates the workers, the timer and the socket thread, joins the workers and frees the
monitor. A thread does nothing before it has been created. -/

namespace PthreadBenchmark.Skynet

/-- How many threads have been created, and whether the mutex has been destroyed and the monitor
freed. -/
structure Process where
  monitor : Monitor
  created : ℕ
  destroyed : Bool
  freed : Bool
  deriving DecidableEq, Repr

/-- Points of `skynet_start` behind the two initialisations. -/
inductive StartPc where
  | create (i : ℕ)
  | join (i : ℕ)
  | destroyMutex
  | destroyCond
  | freePids
  | freeMonitor
  | returned
  deriving DecidableEq, Repr

inductive ProcessPoint (n : ℕ) where
  | start (pc : StartPc)
  | thread (p : Point n)
  deriving DecidableEq, Repr

/-- The thread `none` runs `skynet_start`. -/
abbrev Thread (n : ℕ) := Option (Tid n)

variable {n : ℕ}

abbrev ProcessStep (n : ℕ) := Op (Thread n) Process (ProcessPoint n) Mutex Cond

/-- The thread at this point has been created; `skynet_shutdown` may be called at any time. -/
def Process.Begun (s : Process) : Point n → Prop
  | .worker i _ _ => i < s.created
  | .poller .timer _ _ => n < s.created
  | .poller .socket _ _ => n + 1 < s.created
  | .shutdown _ => True

instance (s : Process) (p : Point n) : Decidable (s.Begun p) := by
  unfold Process.Begun
  split <;> infer_instance

def Process.setMonitor (s : Process) (m : Monitor) : Process := { s with monitor := m }

def skynetStart (s : Process) : StartPc → ProcessStep n
  | .create i =>
    if i < n + 2 then .run { s with created := i + 1 } (.start (.create (i + 1)))
    else .run s (.start (.join 0))
  | .join i =>
    if h : i < n then .join (some (.inl ⟨i, h⟩)) (.start (.join (i + 1)))
    else .run s (.start .destroyMutex)
  | .destroyMutex => .run { s with destroyed := true } (.start .destroyCond)
  | .destroyCond => .run s (.start .freePids)
  | .freePids => .run s (.start .freeMonitor)
  | .freeMonitor => .run { s with freed := true } (.start .returned)
  | .returned => .halt

def processCode (dispatch : Fin n → ℕ → ℤ) (poll : ℕ → ℤ) (s : Process) :
    ProcessPoint n → ProcessStep n
  | .start pc => skynetStart s pc
  | .thread p =>
    if s.Begun p then (code dispatch poll s.monitor p).map some s.setMonitor .thread else .halt

def processStart : Thread n → ProcessPoint n
  | none => .start (.create 0)
  | some t => .thread (start t)

/-- `skynet_start` with `n` workers from the initialised monitor on, and one call of
`skynet_shutdown`. -/
def process (dispatch : Fin n → ℕ → ℤ) (poll : ℕ → ℤ) :
    System (Config (Thread n) Process (ProcessPoint n) Mutex Cond) (Action (Thread n)) :=
  Pthread.program (processCode dispatch poll) ⟨⟨n, 0, 0⟩, 0, false, false⟩ processStart

end PthreadBenchmark.Skynet

import PthreadBenchmark.Concurio.Model
import PthreadBenchmark.Shared.PthreadRules

/-! # The workers of `concurio.c` with `record_absolute`

All workers subtract the same `asbolute_start`, and `timeval_subtract` writes to the time that it
subtracts. Each load of one of its fields and each store to one is a step. -/

namespace PthreadBenchmark.Concurio.Absolute

variable {workers : ℕ}

structure Timeval where
  tvSec : ℤ
  tvUsec : ℤ
  deriving DecidableEq, Repr

/-- `recorded` has the trials and the values that a worker has stored in its `deltas`. -/
structure Shared (workers : ℕ) where
  base : Concurio.Shared workers
  asboluteStart : Timeval
  recorded : Fin workers → List (ℕ × ℕ)

/-- The two blocks of `timeval_subtract` that change `y`. -/
inductive Block where
  | borrow
  | carry
  deriving DecidableEq, Repr

/-- Whether the block is run, with `y->tv_usec` as it has been loaded. -/
def Block.applies (x : Timeval) (usec : ℤ) : Block → Bool
  | .borrow => x.tvUsec < usec
  | .carry => x.tvUsec - usec > 1000000

def Block.nsec (x : Timeval) (usec : ℤ) : Block → ℤ
  | .borrow => (usec - x.tvUsec).tdiv 1000000 + 1
  | .carry => (x.tvUsec - usec).tdiv 1000000

def Block.usec (usec nsec : ℤ) : Block → ℤ
  | .borrow => usec - 1000000 * nsec
  | .carry => usec + 1000000 * nsec

def Block.sec (sec nsec : ℤ) : Block → ℤ
  | .borrow => sec + nsec
  | .carry => sec - nsec

/-- Where a worker is in `timeval_subtract`, and `record` behind it. -/
inductive At where
  | test (b : Block)
  | nsec (b : Block)
  | usecLoad (b : Block) (nsec : ℤ)
  | usecStore (b : Block) (nsec usec : ℤ)
  | secLoad (b : Block) (nsec : ℤ)
  | secStore (b : Block) (nsec sec : ℤ)
  | resultSec
  | resultUsec (sec : ℤ)
  | result (diff : Timeval)
  | record (diff : Timeval)
  deriving DecidableEq, Repr

def Block.next : Block → At
  | .borrow => .test .carry
  | .carry => .resultSec

/-- A worker that is not in `timeval_subtract` is where it is in the program without it. -/
inductive Point (workers : ℕ) where
  | worker (p : Concurio.Point workers)
  | subtract (id : Fin workers) (t : ℕ) (place : At)
  deriving DecidableEq, Repr

/-- `(diff.tv_sec * 1000000) + diff.tv_usec`, as an `uint64_t`. -/
def delta (diff : Timeval) : ℕ := ((diff.tvSec * 1000000 + diff.tvUsec) % 2 ^ 64).toNat

def Shared.record (s : Shared workers) (id : Fin workers) (t : ℕ) (diff : Timeval)
    (base : Concurio.Shared workers) : Shared workers :=
  { s with
    base := base
    recorded := Function.update s.recorded id (s.recorded id ++ [(t, delta diff)]) }

/-- `timeval_subtract(&diff, &after, &asbolute_start)` with `after` in `x`, and the store to
`deltas[t]`. What the function returns, the result of the last load, is not used. -/
def timevalSubtract (trials : ℕ) (x : Timeval) (s : Shared workers) (id : Fin workers) (t : ℕ) :
    At → Op (Fin workers) (Shared workers) (Point workers) Mutex Cond
  | .test b =>
    .run s (.subtract id t (if b.applies x s.asboluteStart.tvUsec then .nsec b else b.next))
  | .nsec b => .run s (.subtract id t (.usecLoad b (b.nsec x s.asboluteStart.tvUsec)))
  | .usecLoad b nsec => .run s (.subtract id t (.usecStore b nsec s.asboluteStart.tvUsec))
  | .usecStore b nsec usec =>
    .run { s with asboluteStart := { s.asboluteStart with tvUsec := b.usec usec nsec } }
      (.subtract id t (.secLoad b nsec))
  | .secLoad b nsec => .run s (.subtract id t (.secStore b nsec s.asboluteStart.tvSec))
  | .secStore b nsec sec =>
    .run { s with asboluteStart := { s.asboluteStart with tvSec := b.sec sec nsec } }
      (.subtract id t b.next)
  | .resultSec => .run s (.subtract id t (.resultUsec s.asboluteStart.tvSec))
  | .resultUsec sec =>
    .run s (.subtract id t (.result ⟨x.tvSec - sec, x.tvUsec - s.asboluteStart.tvUsec⟩))
  | .result diff => .run s (.subtract id t (.record diff))
  | .record diff =>
    (workerRun trials s.base ⟨id, .record t⟩).map (fun i => i) (s.record id t diff) .worker

/-- `after id t` is the time that the worker `id` gets behind its write in the trial `t`. -/
def code (trials : ℕ) (after : Fin workers → ℕ → Timeval) (s : Shared workers) :
    Point workers → Op (Fin workers) (Shared workers) (Point workers) Mutex Cond
  | .worker ⟨id, .record t⟩ => .run s (.subtract id t (.test .borrow))
  | .worker p =>
    (workerRun trials s.base p).map (fun i => i) (fun base => { s with base := base }) .worker
  | .subtract id t place => timevalSubtract trials (after id t) s id t place

def initial (workers : ℕ) (start : Timeval) : Shared workers where
  base := Concurio.initial workers
  asboluteStart := start
  recorded _ := []

/-- `start` is the time at which the program starts. -/
def program (trials : ℕ) (start : Timeval) (after : Fin workers → ℕ → Timeval) :
    System (Config (Fin workers) (Shared workers) (Point workers) Mutex Cond)
      (Action (Fin workers)) :=
  Pthread.program (code trials after) (initial workers start)
    fun id => .worker ⟨id, .registerLock⟩

end PthreadBenchmark.Concurio.Absolute

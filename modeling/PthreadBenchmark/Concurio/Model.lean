import PthreadBenchmark.Shared.Pthread
import Mathlib.Data.Int.Notation

/-! # The workers of `concurio.c`

All workers write in step with worker 0, which publishes each trial that it has completed. The
file operations succeed. `pthread_usleep` only lets time pass. -/

namespace PthreadBenchmark.Concurio

variable {workers : ℕ}

/-- `written` counts the calls of `write`, and `deltas` has the indices at which a worker has
stored; both are history. -/
structure Shared (workers : ℕ) where
  workersAlive : ℤ
  workerSyncT : ℤ
  written : Fin workers → ℕ
  deltas : Fin workers → List ℕ

inductive Mutex where
  | workerSyncLock
  deriving DecidableEq, Repr

inductive Cond where
  | workerSyncCond
  deriving DecidableEq, Repr

inductive Pc where
  | registerLock
  | register
  | registerUnlock
  | start
  | loop (t : ℕ)
  | waitLock (t : ℕ)
  | waitTest (t : ℕ)
  | waitUnlock (t : ℕ)
  | write (t : ℕ)
  | record (t : ℕ)
  | publishLock (t : ℕ)
  | publish (t : ℕ)
  | publishBroadcast (t : ℕ)
  | publishUnlock (t : ℕ)
  | finishLock
  | finish
  | finishUnlock
  | finished
  deriving DecidableEq, Repr

structure Point (workers : ℕ) where
  id : Fin workers
  pc : Pc
  deriving DecidableEq, Repr

def workerRun (trials : ℕ) (s : Shared workers) (p : Point workers) :
    Op (Fin workers) (Shared workers) (Point workers) Mutex Cond :=
  match p.pc with
  | .registerLock => .lock .workerSyncLock ⟨p.id, .register⟩
  | .register => .run { s with workersAlive := s.workersAlive + 1 } ⟨p.id, .registerUnlock⟩
  | .registerUnlock =>
    .unlock .workerSyncLock ⟨p.id, if p.id.val = 0 then .start else .loop 0⟩
  | .start => .run s ⟨p.id, if s.workersAlive < workers then .start else .loop 0⟩
  | .loop t =>
    if p.id.val = 0 then
      .run s ⟨p.id, if trials ≤ t ∧ s.workersAlive = 1 then .finishLock else .write t⟩
    else .run s ⟨p.id, if trials ≤ t then .finishLock else .waitLock t⟩
  | .waitLock t => .lock .workerSyncLock ⟨p.id, .waitTest t⟩
  | .waitTest t =>
    if s.workerSyncT < t then .wait .workerSyncCond .workerSyncLock ⟨p.id, .waitTest t⟩
    else .run s ⟨p.id, .waitUnlock t⟩
  | .waitUnlock t => .unlock .workerSyncLock ⟨p.id, .write t⟩
  | .write t =>
    .run { s with written := Function.update s.written p.id (s.written p.id + 1) }
      ⟨p.id, .record t⟩
  | .record t =>
    .run { s with deltas := Function.update s.deltas p.id (s.deltas p.id ++ [t]) }
      ⟨p.id, if p.id.val = 0 then .publishLock t else .loop (t + 1)⟩
  | .publishLock t => .lock .workerSyncLock ⟨p.id, .publish t⟩
  | .publish t => .run { s with workerSyncT := t } ⟨p.id, .publishBroadcast t⟩
  | .publishBroadcast t => .broadcast .workerSyncCond ⟨p.id, .publishUnlock t⟩
  | .publishUnlock t => .unlock .workerSyncLock ⟨p.id, .loop (t + 1)⟩
  | .finishLock => .lock .workerSyncLock ⟨p.id, .finish⟩
  | .finish => .run { s with workersAlive := s.workersAlive - 1 } ⟨p.id, .finishUnlock⟩
  | .finishUnlock => .unlock .workerSyncLock ⟨p.id, .finished⟩
  | .finished => .halt

def initial (workers : ℕ) : Shared workers where
  workersAlive := 0
  workerSyncT := -1
  written _ := 0
  deltas _ := []

/-- Any number of threads, created in any order. -/
def program (workers trials : ℕ) :
    System (Config (Fin workers) (Shared workers) (Point workers) Mutex Cond)
      (Action (Fin workers)) :=
  Pthread.program (workerRun trials) (initial workers) fun id => ⟨id, .registerLock⟩

end PthreadBenchmark.Concurio

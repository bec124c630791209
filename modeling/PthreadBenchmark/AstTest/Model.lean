import PthreadBenchmark.Shared.Blocking

/-! # The lock test of `asttest.c`

`main` with `-p`, and the thread of the lock manager that `dlm_pthread_init` starts. For each
request that has been queued the lock manager calls `ast_routine` once, which may be before
`dlm_lock` or `dlm_unlock` has returned. -/

namespace PthreadBenchmark.AstTest

/-- The options behind `-p`, and whether the two calls of the lock manager return -1. -/
structure Options where
  doUnlock : Bool
  doCrash : Bool
  lockFails : Bool
  unlockFails : Bool
  deriving DecidableEq, Repr

/-- `requested` and `called` count the requests and the calls of `ast_routine`. -/
structure Shared where
  astCalled : Bool
  requested : ℕ
  called : ℕ
  deriving DecidableEq, Repr

inductive Mutex where
  | mutex
  deriving DecidableEq, Repr

inductive Cond where
  | cond
  deriving DecidableEq, Repr

inductive Thread where
  | main
  | dlm
  deriving DecidableEq, Repr

instance : Fintype Thread := ⟨{.main, .dlm}, fun t => by cases t <;> simp⟩

/-- Points of `main` from its `pthread_mutex_lock` on, and of the thread that dispatches. -/
inductive Point where
  | mainLock
  | dlmLock
  | crashTest
  | lockWait
  | lockUnlock
  | dlmUnlock
  | unlockWait
  | unlockUnlock
  | crashed
  | failed
  | returned
  | dispatch
  | astLock
  | astSet
  | astSignal
  | astUnlock
  deriving DecidableEq, Repr

variable (o : Options) (s : Shared)

/-- The second wait is not preceded by a lock of the mutex. -/
def code : Point → Op Thread Shared Point Mutex Cond
  | .mainLock => .lock .mutex .dlmLock
  | .dlmLock =>
    if o.lockFails then .run s .failed
    else .run { s with requested := s.requested + 1 } .crashTest
  | .crashTest => .run s (if o.doCrash then .crashed else .lockWait)
  | .lockWait => .wait .cond .mutex .lockUnlock
  | .lockUnlock => .unlock .mutex .dlmUnlock
  | .dlmUnlock =>
    if o.doUnlock = false ∨ o.unlockFails then .run s .returned
    else .run { s with requested := s.requested + 1 } .unlockWait
  | .unlockWait => .wait .cond .mutex .unlockUnlock
  | .unlockUnlock => .unlock .mutex .returned
  | .crashed | .failed | .returned => .halt
  | .dispatch =>
    .await (s.called < s.requested) s { s with called := s.called + 1 } .dispatch .astLock
  | .astLock => .lock .mutex .astSet
  | .astSet => .run { s with astCalled := true } .astSignal
  | .astSignal => .signal .cond .astUnlock
  | .astUnlock => .unlock .mutex .dispatch

def start : Thread → Point
  | .main => .mainLock
  | .dlm => .dispatch

def program : System (Config Thread Shared Point Mutex Cond) (Action Thread) :=
  Pthread.program (code o) ⟨false, 0, 0⟩ start

end PthreadBenchmark.AstTest

import PthreadBenchmark.Shared.Pthread

/-! # The start barrier of `perf_index.c`

Each thread counts itself and waits for the broadcast of `main`, which waits for the last of them.
Neither wait is in a loop. -/

namespace PthreadBenchmark.PerfIndex

structure Shared where
  readyThreadCount : ℕ
  deriving DecidableEq, Repr

inductive Mutex where
  | readyThreadCountLock
  deriving DecidableEq, Repr

inductive Cond where
  | threadsReadyCvar
  | startCvar
  deriving DecidableEq, Repr

/-- Points of a thread in `thread_setup`, up to the call of `test.execute` and behind it, and of
`main` between the creation of the threads and the joins. -/
inductive Point where
  | setupLock
  | setupCount
  | setupTest
  | setupSignal
  | setupWait
  | setupUnlock
  | execute
  | executed
  | mainLock
  | mainTest
  | mainUnlock
  | mainBroadcast
  | mainJoin (threadIndex : ℕ)
  deriving DecidableEq, Repr

/-- Thread `none` is `main`; the others are numbered. -/
def code (numThreads : ℕ) (s : Shared) :
    Point → Op (Option (Fin numThreads)) Shared Point Mutex Cond
  | .setupLock => .lock .readyThreadCountLock .setupCount
  | .setupCount => .run ⟨s.readyThreadCount + 1⟩ .setupTest
  | .setupTest => .run s (if s.readyThreadCount = numThreads then .setupSignal else .setupWait)
  | .setupSignal => .signal .threadsReadyCvar .setupWait
  | .setupWait => .wait .startCvar .readyThreadCountLock .setupUnlock
  | .setupUnlock => .unlock .readyThreadCountLock .execute
  | .execute => .run s .executed
  | .executed => .halt
  | .mainLock => .lock .readyThreadCountLock .mainTest
  | .mainTest =>
    if s.readyThreadCount ≠ numThreads then
      .wait .threadsReadyCvar .readyThreadCountLock .mainUnlock
    else .run s .mainUnlock
  | .mainUnlock => .unlock .readyThreadCountLock .mainBroadcast
  | .mainBroadcast => .broadcast .startCvar (.mainJoin 0)
  | .mainJoin threadIndex =>
    if h : threadIndex < numThreads then .join (some ⟨threadIndex, h⟩) (.mainJoin (threadIndex + 1))
    else .halt

def start {numThreads : ℕ} : Option (Fin numThreads) → Point
  | none => .mainLock
  | some _ => .setupLock

def program (numThreads : ℕ) : System (Config (Option (Fin numThreads)) Shared Point Mutex Cond)
    (Action (Option (Fin numThreads))) :=
  Pthread.program (code numThreads) ⟨0⟩ start

end PthreadBenchmark.PerfIndex

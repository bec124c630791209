import PthreadBenchmark.Shared.Pthread

/-! # The counter and its watcher of `thread_with_conditions.c`

The accesses of one critical section to `count` are one operation, as they are made under
`count_mutex`. -/

namespace PthreadBenchmark.WatchCount

/-- `increments` and `updates` are history: how often `inc_count` has counted and
`watch_count` has added 125. -/
structure Shared where
  count : ℕ
  increments : ℕ
  updates : ℕ
  deriving DecidableEq, Repr

inductive Mutex where
  | countMutex
  deriving DecidableEq, Repr

inductive Cond where
  | countThresholdCv
  deriving DecidableEq, Repr

/-- Points of `inc_count`, with the loop index, and of `watch_count`. -/
inductive Point where
  | incLoop (i : ℕ)
  | incBody (i : ℕ)
  | incSignal (i : ℕ)
  | incUnlock (i : ℕ)
  | incExit
  | watchLock
  | watchTest
  | watchUpdate
  | watchUnlock
  | watchExit
  deriving DecidableEq, Repr

/-- Thread `none` is the watcher; the threads that count are numbered. -/
def code {n : ℕ} (totalCount countLimit : ℕ) (s : Shared) :
    Point → Op (Option (Fin n)) Shared Point Mutex Cond
  | .incLoop i => if i < totalCount then .lock .countMutex (.incBody i) else .run s .incExit
  | .incBody i =>
    .run { s with count := s.count + 1, increments := s.increments + 1 }
      (if s.count + 1 = countLimit then .incSignal i else .incUnlock i)
  | .incSignal i => .signal .countThresholdCv (.incUnlock i)
  | .incUnlock i => .unlock .countMutex (.incLoop (i + 1))
  | .incExit => .halt
  | .watchLock => .lock .countMutex .watchTest
  | .watchTest =>
    if s.count < countLimit then .wait .countThresholdCv .countMutex .watchTest
    else .run s .watchUpdate
  | .watchUpdate => .run { s with count := s.count + 125, updates := s.updates + 1 } .watchUnlock
  | .watchUnlock => .unlock .countMutex .watchExit
  | .watchExit => .halt

def start {n : ℕ} : Option (Fin n) → Point
  | none => .watchLock
  | some _ => .incLoop 0

def program (n totalCount countLimit : ℕ) :
    System (Config (Option (Fin n)) Shared Point Mutex Cond) (Action (Option (Fin n))) :=
  Pthread.program (code totalCount countLimit) ⟨0, 0, 0⟩ start

end PthreadBenchmark.WatchCount

import PthreadBenchmark.Shared.Pthread

/-! # The watcher of `06_thread_cond_var.c`

The update of the counter is inside of the loop that waits. -/

namespace PthreadBenchmark.ThreadCondVar

/-- `increments` and `updatedAt` are history: how often `inc_count` has counted, and how often it
had at each time at which `watch_count` has added 125. -/
structure Shared where
  count : ℕ
  increments : ℕ
  updatedAt : List ℕ
  deriving DecidableEq, Repr

inductive Mutex where
  | countMutex
  deriving DecidableEq, Repr

inductive Cond where
  | countThresholdCv
  deriving DecidableEq, Repr

/-- Points of `inc_count`, with the loop index, and of `watch_count`. -/
inductive Point where
  | incLoop (i : ℕ)
  | incBody (i : ℕ)
  | incSignal (i : ℕ)
  | incUnlock (i : ℕ)
  | incExit
  | watchLock
  | watchTest
  | watchUpdate
  | watchUnlock
  | watchExit
  deriving DecidableEq, Repr

/-- Thread `none` is the watcher; the two threads that count are numbered. -/
abbrev Tid := Option (Fin 2)

def code (tCount countLimit : ℕ) (s : Shared) : Point → Op Tid Shared Point Mutex Cond
  | .incLoop i => if i < tCount then .lock .countMutex (.incBody i) else .run s .incExit
  | .incBody i =>
    .run { s with count := s.count + 1, increments := s.increments + 1 }
      (if s.count + 1 = countLimit then .incSignal i else .incUnlock i)
  | .incSignal i => .signal .countThresholdCv (.incUnlock i)
  | .incUnlock i => .unlock .countMutex (.incLoop (i + 1))
  | .incExit => .halt
  | .watchLock => .lock .countMutex .watchTest
  | .watchTest =>
    if s.count < countLimit then .wait .countThresholdCv .countMutex .watchUpdate
    else .run s .watchUnlock
  | .watchUpdate =>
    .run { s with count := s.count + 125, updatedAt := s.updatedAt ++ [s.increments] } .watchTest
  | .watchUnlock => .unlock .countMutex .watchExit
  | .watchExit => .halt

def start : Tid → Point
  | none => .watchLock
  | some _ => .incLoop 0

def program (tCount countLimit : ℕ) :
    System (Config Tid Shared Point Mutex Cond) (Action Tid) :=
  Pthread.program (code tCount countLimit) ⟨0, 0, []⟩ start

end PthreadBenchmark.ThreadCondVar

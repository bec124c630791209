import PthreadBenchmark.Shared.Pthread

/-! # The thread pool of `pth_pool.c`

The accesses of one critical section to the queue are one operation, as they are made
under the mutex; the signals are sent after the unlock. -/

namespace PthreadBenchmark.Pool

structure Task where
  a : ℤ
  b : ℤ
  deriving DecidableEq, Repr

/-- `stored`, `taken` and `returned` are history: the tasks `submitTask` has put into the
queue, those removed from it, and those `getTask` has returned. -/
structure Shared where
  taskQueue : ℕ → Task
  taskCount : ℕ
  stored : List Task
  taken : List Task
  returned : List Task

inductive Mutex where
  | mutex
  deriving DecidableEq, Repr

inductive Cond where
  | condFull
  | condEmpty
  deriving DecidableEq, Repr

/-- Points of a worker, in `getTask` and behind its return, and of `main`, in `submitTask`
with the tasks still to be submitted and joining the workers. A test is `woken` when it
comes after `pthread_cond_wait`. -/
inductive Point where
  | getLock
  | getTest (woken : Bool)
  | getUnlock (task : Task)
  | getSignal (task : Task)
  | startThread (task : Task)
  | exited
  | submitLock (tasks : List Task)
  | submitTest (task : Task) (rest : List Task)
  | submitUnlock (rest : List Task)
  | submitSignal (rest : List Task)
  | joining (i : ℕ)

/-- `for (i = 0; i < n; i++) taskQueue[i] = taskQueue[i + 1]`, from `i` on. -/
def shiftLoop : ℕ → ℕ → (ℕ → Task) → (ℕ → Task)
  | 0, _, taskQueue => taskQueue
  | n + 1, i, taskQueue =>
    shiftLoop n (i + 1) (Function.update taskQueue i (taskQueue (i + 1)))

/-- The body of `getTask` behind its loop. -/
def getTask (s : Shared) : Shared :=
  { s with
    taskQueue := shiftLoop (s.taskCount - 1) 0 s.taskQueue
    taskCount := s.taskCount - 1
    taken := s.taken ++ [s.taskQueue 0] }

/-- The body of `submitTask` behind its loop. -/
def submitTask (s : Shared) (task : Task) : Shared :=
  { s with
    taskQueue := Function.update s.taskQueue s.taskCount task
    taskCount := s.taskCount + 1
    stored := s.stored ++ [task] }

/-- Thread `none` is `main`; the workers are numbered. -/
def code (bufferSize nThreads : ℕ) (s : Shared) :
    Point → Op (Option (Fin nThreads)) Shared Point Mutex Cond
  | .getLock => .lock .mutex (.getTest false)
  | .getTest _ =>
    if s.taskCount = 0 then .wait .condEmpty .mutex (.getTest true)
    else .run (getTask s) (.getUnlock (s.taskQueue 0))
  | .getUnlock task => .unlock .mutex (.getSignal task)
  | .getSignal task => .signal .condFull (.startThread task)
  | .startThread task =>
    .run { s with returned := s.returned ++ [task] }
      (if task.a = -1 ∧ task.b = -1 then .exited else .getLock)
  | .exited => .halt
  | .submitLock [] => .run s (.joining 0)
  | .submitLock (task :: rest) => .lock .mutex (.submitTest task rest)
  | .submitTest task rest =>
    if s.taskCount = bufferSize then .wait .condFull .mutex (.submitTest task rest)
    else .run (submitTask s task) (.submitUnlock rest)
  | .submitUnlock rest => .unlock .mutex (.submitSignal rest)
  | .submitSignal rest => .signal .condEmpty (.submitLock rest)
  | .joining i => if h : i < nThreads then .join (some ⟨i, h⟩) (.joining (i + 1)) else .halt

def initialShared : Shared := ⟨fun _ => ⟨0, 0⟩, 0, [], [], []⟩

def start {nThreads : ℕ} (tasks : List Task) : Option (Fin nThreads) → Point
  | none => .submitLock tasks
  | some _ => .getLock

def program (bufferSize nThreads : ℕ) (tasks : List Task) :
    System (Config (Option (Fin nThreads)) Shared Point Mutex Cond)
      (Action (Option (Fin nThreads))) :=
  Pthread.program (code bufferSize nThreads) initialShared (start tasks)

end PthreadBenchmark.Pool

import PthreadBenchmark.Shared.Pthread

/-! # The work area of `124mutex.c`

`main` reads lines into `work_area`, and a second thread looks at them. An empty `work_area` says
that the line has been seen. -/

namespace PthreadBenchmark.WorkArea

/-- `WORK_SIZE` -/
def workSize : ℕ := 1024

def nul : Char := Char.ofNat 0

/-- The lines that are still to be read, the string in `work_area` and the flag. -/
structure Shared where
  stdin : List (List Char)
  workArea : List Char
  timeToExit : Bool
  deriving DecidableEq, Repr

inductive Tid where
  | main
  | aThread
  deriving DecidableEq, Repr

instance : Fintype Tid := ⟨{.main, .aThread}, fun t => by cases t <;> simp⟩

inductive Mutex where
  | workMutex
  deriving DecidableEq, Repr

inductive Cond where
  | workCond
  deriving DecidableEq, Repr

/-- Points of `main` and of `thread_function`. -/
inductive Point where
  | mainStart
  | mainLoop
  | mainRead
  | mainSignal
  | mainUnlock
  | mainLock
  | mainTest
  | mainLeave
  | mainJoin
  | mainExited
  | lock
  | test
  | clear
  | signal
  | wait
  | setExit
  | signalExit
  | unlock
  | exited
  deriving DecidableEq, Repr

/-- `fgets` takes a line, or as much of it as there is room for. -/
def fgets (size : ℕ) : List (List Char) → Option (List Char × List (List Char))
  | [] => none
  | line :: rest =>
    some (line.take (size - 1),
      if line.length ≤ size - 1 then rest else line.drop (size - 1) :: rest)

/-- `fgets(work_area, WORK_SIZE, stdin)`. At the end of the input the work area stays as it is. -/
def readLine (s : Shared) : Shared :=
  match fgets workSize s.stdin with
  | none => s
  | some (line, rest) => { s with workArea := line.takeWhile (· ≠ nul), stdin := rest }

/-- `strncmp("end", work_area, 3) == 0` -/
def IsEnd (workArea : List Char) : Prop := workArea.take 3 = ['e', 'n', 'd']

instance (workArea : List Char) : Decidable (IsEnd workArea) :=
  inferInstanceAs (Decidable (workArea.take 3 = ['e', 'n', 'd']))

def code (s : Shared) : Point → Op Tid Shared Point Mutex Cond
  | .mainStart => .lock .workMutex .mainLoop
  | .mainLoop => .run s (if s.timeToExit then .mainLeave else .mainRead)
  | .mainRead => .run (readLine s) .mainSignal
  | .mainSignal => .signal .workCond .mainUnlock
  | .mainUnlock => .unlock .workMutex .mainLock
  | .mainLock => .lock .workMutex .mainTest
  | .mainTest => if s.workArea ≠ [] then .wait .workCond .workMutex .mainTest else .run s .mainLoop
  | .mainLeave => .unlock .workMutex .mainJoin
  | .mainJoin => .join .aThread .mainExited
  | .mainExited => .halt
  | .lock => .lock .workMutex .test
  | .test => .run s (if IsEnd s.workArea then .setExit else .clear)
  | .clear => .run { s with workArea := [] } .signal
  | .signal => .signal .workCond .wait
  | .wait => .wait .workCond .workMutex .test
  | .setExit => .run { s with timeToExit := true } .signalExit
  | .signalExit => .signal .workCond .unlock
  | .unlock => .unlock .workMutex .exited
  | .exited => .halt

def start : Tid → Point
  | .main => .mainStart
  | .aThread => .lock

def program (lines : List (List Char)) :
    System (Config Tid Shared Point Mutex Cond) (Action Tid) :=
  Pthread.program code ⟨lines, [], false⟩ start

end PthreadBenchmark.WorkArea

import PthreadBenchmark.Shared.Blocking
import PthreadBenchmark.Shared.Indexed
import PthreadBenchmark.Shared.Int32

/-! # The search for the minimum of `pthread-findminimumvalue.c`

`main` checks the number of threads, gives each thread a block of the list and joins them all. The
list has any elements, which become an `int` when they are stored. A thread that reads outside of
the list stops at `fault`. -/

namespace PthreadBenchmark.FindMin

/-- `created` counts the calls of `pthread_create`. -/
structure Shared where
  created : ℕ
  partialListSize : ℤ
  minimumValue : ℤ
  deriving DecidableEq, Repr

inductive Mutex where
  | minimumValueLock
  deriving DecidableEq, Repr

inductive MainPc where
  | check
  | size
  | firstElement
  | create (counter : ℕ)
  | join (counter : ℕ)
  | returned
  | aborted
  deriving DecidableEq, Repr

/-- Points of `find_min`, behind the first one with the locals `counter` and `my_min`. -/
inductive WorkerPc where
  | start
  | first
  | loop (counter myMin : ℤ)
  | test (myMin : ℤ)
  | store (myMin : ℤ)
  | unlock
  | exited
  deriving DecidableEq, Repr

inductive Point (n : ℕ) where
  | main (pc : MainPc)
  | worker (w : Fin n) (pc : WorkerPc)
  | fault
  deriving DecidableEq, Repr

/-- The threads of `find_min`, and `main` as `none`. -/
abbrev Tid (n : ℕ) := Option (Fin n)

abbrev Step (n : ℕ) := Op (Tid n) Shared (Point n) Mutex Empty

variable {n : ℕ}

/-- `myId` counts from one. -/
def myId (w : Fin n) : ℤ := w + 1

/-- The first index of a thread. -/
def firstIndex (s : Shared) (w : Fin n) : ℤ := (myId w - 1) * s.partialListSize

def findMin (list : List ℤ) (s : Shared) (w : Fin n) : WorkerPc → Step n
  | .start => .await (w < s.created) s s (.worker w .start) (.worker w .first)
  | .first =>
    .run s (match element? list (firstIndex s w) with
      | some v => .worker w (.loop (firstIndex s w) (toInt v))
      | none => .fault)
  | .loop counter myMin =>
    if counter ≤ myId w * s.partialListSize - 1 then
      .run s (match element? list counter with
        | some v => .worker w (.loop (counter + 1) (if v < myMin then toInt v else myMin))
        | none => .fault)
    else .lock .minimumValueLock (.worker w (.test myMin))
  | .test myMin => .run s (.worker w (if myMin < s.minimumValue then .store myMin else .unlock))
  | .store myMin => .run { s with minimumValue := myMin } (.worker w .unlock)
  | .unlock => .unlock .minimumValueLock (.worker w .exited)
  | .exited => .halt

def main (list : List ℤ) (s : Shared) : MainPc → Step n
  | .check =>
    .run s (.main
      (if n < 1 then .aborted
        else if n ≠ 1 ∧ n ≠ 2 ∧ n ≠ 4 ∧ n ≠ 8 then .aborted
        else if list.length % n ≠ 0 then .aborted
        else .size))
  | .size =>
    .run { s with partialListSize := (list.length / n : ℕ) } (.main .firstElement)
  | .firstElement =>
    match element? list 0 with
    | some v => .run { s with minimumValue := toInt v } (.main (.create 0))
    | none => .run s .fault
  | .create counter =>
    if counter < n then .run { s with created := counter + 1 } (.main (.create (counter + 1)))
    else .run s (.main (.join 0))
  | .join counter =>
    if h : counter < n then .join (some ⟨counter, h⟩) (.main (.join (counter + 1)))
    else .run s (.main .returned)
  | .returned | .aborted => .halt

def code (list : List ℤ) (s : Shared) : Point n → Step n
  | .main pc => main list s pc
  | .worker w pc => findMin list s w pc
  | .fault => .halt

def start : Tid n → Point n
  | some w => .worker w .start
  | none => .main .check

/-- The globals of a C program are zero at the beginning. -/
def zero : Shared := ⟨0, 0, 0⟩

def program (n : ℕ) (list : List ℤ) :
    System (Config (Tid n) Shared (Point n) Mutex Empty) (Action (Tid n)) :=
  Pthread.program (code list) zero start

/-! ## Which elements are examined -/

/-- The index of the element that a thread reads in this step. -/
def examined? (s : Shared) : Point n → Option (Fin n × ℤ)
  | .worker w .first => some (w, firstIndex s w)
  | .worker w (.loop counter _) =>
    if counter ≤ myId w * s.partialListSize - 1 then some (w, counter) else none
  | _ => none

end PthreadBenchmark.FindMin

import PthreadBenchmark.Shared.Pthread
import Mathlib.Data.Int.Notation

/-! # The display threads of `assignment2question2.c`

All threads run `jobDisplay` over the same list of jobs. A linked list is a list, and a
pointer into it is the rest of the list; times are integers. -/

namespace PthreadBenchmark.Jobs

structure Job (υ : Type*) where
  user : υ
  arrival : ℤ
  duration : ℤ
  deriving DecidableEq, Repr

structure Display (υ : Type*) where
  user : υ
  timeLastCalculated : ℤ
  deriving DecidableEq, Repr

variable {υ : Type*}

/-- `rearDisplay` is the last node of the list from `frontDisplay`. -/
structure Shared (υ : Type*) where
  head : List (Job υ)
  frontDisplay : List (Display υ)

inductive Mutex where
  | m1
  | m2
  deriving DecidableEq, Repr

/-- Points of `jobDisplay`, with `placeholder` or the current job and its successors, and
`myTime`; the `summary` points are those of `addToSummary`. -/
inductive Point (υ : Type*) where
  | headLock
  | headRead
  | headUnlock (placeholder : List (Job υ))
  | loop (placeholder : List (Job υ)) (myTime : ℤ)
  | jobLock (job : Job υ) (next : List (Job υ)) (myTime : ℤ)
  | jobUnlock (job : Job υ) (next : List (Job υ)) (myTime : ℤ)
  | summaryLock (name : υ) (next : List (Job υ)) (myTime : ℤ)
  | summaryBody (name : υ) (next : List (Job υ)) (myTime : ℤ)
  | summaryUnlock (next : List (Job υ)) (myTime : ℤ)
  | nextLock (next : List (Job υ)) (myTime : ℤ)
  | nextUnlock (next : List (Job υ)) (myTime : ℤ)
  | exited

/-- A thread that is early sleeps until the job arrives. -/
def arrive (myTime arrival : ℤ) : ℤ := if myTime < arrival then arrival else myTime

/-- `for (int i = 0; i < duration; i++) myTime++`. -/
def displayLoop : ℕ → ℤ → ℤ
  | 0, myTime => myTime
  | n + 1, myTime => displayLoop n (myTime + 1)

/-- The body of `addToSummary`: the walk stops at the node of the user, or appends one
behind the last node. -/
def addToSummary [DecidableEq υ] : List (Display υ) → υ → ℤ → List (Display υ)
  | [], name, timeLeft => [⟨name, timeLeft⟩]
  | d :: ds, name, timeLeft =>
    if d.user = name then { d with timeLastCalculated := timeLeft } :: ds
    else d :: addToSummary ds name timeLeft

def code [DecidableEq υ] {ι : Type*} (s : Shared υ) :
    Point υ → Op ι (Shared υ) (Point υ) Mutex Empty
  | .headLock => .lock .m1 .headRead
  | .headRead => .run s (.headUnlock s.head)
  | .headUnlock placeholder => .unlock .m1 (.loop placeholder 0)
  | .loop [] _ => .run s .exited
  | .loop (job :: next) myTime => .run s (.jobLock job next (arrive myTime job.arrival))
  | .jobLock job next myTime => .lock .m1 (.jobUnlock job next myTime)
  | .jobUnlock job next myTime =>
    .unlock .m1 (.summaryLock job.user next (displayLoop job.duration.toNat myTime))
  | .summaryLock name next myTime => .lock .m2 (.summaryBody name next myTime)
  | .summaryBody name next myTime =>
    .run { s with frontDisplay := addToSummary s.frontDisplay name myTime }
      (.summaryUnlock next myTime)
  | .summaryUnlock next myTime => .unlock .m2 (.nextLock next myTime)
  | .nextLock next myTime => .lock .m1 (.nextUnlock next myTime)
  | .nextUnlock next myTime => .unlock .m1 (.loop next myTime)
  | .exited => .halt

/-- `n` display threads on a list of jobs, with an empty summary. -/
def program [DecidableEq υ] (n : ℕ) (jobs : List (Job υ)) :
    System (Config (Fin n) (Shared υ) (Point υ) Mutex Empty) (Action (Fin n)) :=
  Pthread.program code ⟨jobs, []⟩ fun _ => .headLock

/-- All threads have returned, so that `main` has joined them. -/
def Joined [DecidableEq υ] {n : ℕ} (c : Config (Fin n) (Shared υ) (Point υ) Mutex Empty) : Prop :=
  ∀ i, Pthread.Halted (code (ι := Fin n)) c.shared (c.threads i)

end PthreadBenchmark.Jobs

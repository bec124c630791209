import PthreadBenchmark.Shared.Blocking
import PthreadBenchmark.Shared.Indexed

/-! # The sum and the extremes of an array in `010_mutex_array_sum.c`

Each thread goes over a block of the array and adds its results to the global ones, each under its
own mutex. The array has any elements and any length, and the blocks any sizes. Sums are exact. A
thread that reads outside of the array stops at `fault`. -/

namespace PthreadBenchmark.ArraySum

structure Params where
  sindex : ℤ
  eindex : ℤ
  deriving DecidableEq, Repr

/-- `created` counts the calls of `pthread_create`. -/
structure Shared where
  created : ℕ
  p : ℕ → Params
  sum : ℤ
  max : ℤ
  min : ℤ

inductive Mutex where
  | mut1
  | mut2
  | mut3
  deriving DecidableEq, Repr

/-- Points of `main`, with `i` and `t1`. -/
inductive MainPc where
  | split (i : ℕ) (t1 : ℤ)
  | create (i : ℕ)
  | join (i : ℕ)
  | returned
  deriving DecidableEq, Repr

/-- Points of `func`, with those locals that are used again. A store comes with what has been read
before. -/
inductive WorkerPc where
  | start
  | first
  | loop (i localSum localMax localMin : ℤ)
  | sumLoad (localSum localMax localMin : ℤ)
  | sumStore (v localMax localMin : ℤ)
  | sumUnlock (localMax localMin : ℤ)
  | minLock (localMax localMin : ℤ)
  | minTest (localMax localMin : ℤ)
  | minStore (localMax localMin : ℤ)
  | minUnlock (localMax : ℤ)
  | maxLock (localMax : ℤ)
  | maxTest (localMax : ℤ)
  | maxStore (localMax : ℤ)
  | maxUnlock
  | exited
  deriving DecidableEq, Repr

inductive Point (n : ℕ) where
  | main (pc : MainPc)
  | worker (w : Fin n) (pc : WorkerPc)
  | fault
  deriving DecidableEq, Repr

/-- The threads of `func`, and `main` as `none`. -/
abbrev Tid (n : ℕ) := Option (Fin n)

abbrev Step (n : ℕ) := Op (Tid n) Shared (Point n) Mutex Empty

variable {n : ℕ}

def func (arr : List ℤ) (s : Shared) (w : Fin n) : WorkerPc → Step n
  | .start => .await (w < s.created) s s (.worker w .start) (.worker w .first)
  | .first => .run s (.worker w (.loop (s.p w).sindex 0 0 0))
  | .loop i localSum localMax localMin =>
    if i ≤ (s.p w).eindex then
      .run s (match element? arr i with
        | some v => .worker w (.loop (i + 1) (localSum + v) (if v > localMax then v else localMax)
            (if v < localMin then v else localMin))
        | none => .fault)
    else .lock .mut1 (.worker w (.sumLoad localSum localMax localMin))
  | .sumLoad localSum localMax localMin =>
    .run s (.worker w (.sumStore (s.sum + localSum) localMax localMin))
  | .sumStore v localMax localMin =>
    .run { s with sum := v } (.worker w (.sumUnlock localMax localMin))
  | .sumUnlock localMax localMin => .unlock .mut1 (.worker w (.minLock localMax localMin))
  | .minLock localMax localMin => .lock .mut2 (.worker w (.minTest localMax localMin))
  | .minTest localMax localMin =>
    .run s (.worker w
      (if localMin < s.min then .minStore localMax localMin else .minUnlock localMax))
  | .minStore localMax localMin =>
    .run { s with min := localMin } (.worker w (.minUnlock localMax))
  | .minUnlock localMax => .unlock .mut2 (.worker w (.maxLock localMax))
  | .maxLock localMax => .lock .mut3 (.worker w (.maxTest localMax))
  | .maxTest localMax =>
    .run s (.worker w (if localMax > s.max then .maxStore localMax else .maxUnlock))
  | .maxStore localMax => .run { s with max := localMax } (.worker w .maxUnlock)
  | .maxUnlock => .unlock .mut3 (.worker w .exited)
  | .exited => .halt

/-- The sizes of the blocks are 100 in the source, and the number of threads is 5. -/
def main (sizes : ℕ → ℕ) (s : Shared) : MainPc → Step n
  | .split i t1 =>
    if i < n then
      .run { s with p := Function.update s.p i ⟨t1, t1 + (sizes i - 1)⟩ }
        (.main (.split (i + 1) (t1 + 1 + (sizes i - 1))))
    else .run s (.main (.create 0))
  | .create i =>
    if i < n then .run { s with created := i + 1 } (.main (.create (i + 1)))
    else .run s (.main (.join 0))
  | .join i =>
    if h : i < n then .join (some ⟨i, h⟩) (.main (.join (i + 1)))
    else .run s (.main .returned)
  | .returned => .halt

def code (sizes : ℕ → ℕ) (arr : List ℤ) (s : Shared) : Point n → Step n
  | .main pc => main sizes s pc
  | .worker w pc => func arr s w pc
  | .fault => .halt

def start : Tid n → Point n
  | some w => .worker w .start
  | none => .main (.split 0 0)

/-- The local array `p` has any content at the beginning, and the globals are zero. -/
def program (n : ℕ) (sizes : ℕ → ℕ) (arr : List ℤ) (p : ℕ → Params) :
    System (Config (Tid n) Shared (Point n) Mutex Empty) (Action (Tid n)) :=
  Pthread.program (code sizes arr) ⟨0, p, 0, 0, 0⟩ start

end PthreadBenchmark.ArraySum

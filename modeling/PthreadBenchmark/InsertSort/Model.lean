import PthreadBenchmark.Shared.Blocking
import Mathlib.Data.Int.Notation

/-! # The sort of `06mutex.c`

`func` inserts the numbers into the array into which `main` reads them. Each access of `func` to the
array is a step of its own. -/

namespace PthreadBenchmark.InsertSort

/-- `created` holds behind the call of `pthread_create`. -/
structure Shared where
  created : Bool
  a : ℕ → ℤ

inductive Mutex where
  | m
  deriving DecidableEq, Repr

/-- The program has no condition variable. -/
inductive Cond
  deriving DecidableEq

inductive Thread where
  | main
  | func
  deriving DecidableEq, Repr

instance : Fintype Thread := ⟨{.main, .func}, fun t => by cases t <;> simp⟩

/-- Points of `main` and of `func`, with the loop indices `i` and `j` and the value `t`; `v` is what
has been read of `source[j - 1]`. -/
inductive Point where
  | mainLock
  | create
  | mainLoop (i : ℕ)
  | mainUnlock (i : ℕ)
  | mainRelock (i : ℕ)
  | mainJoin
  | mainReturn
  | funcStart
  | funcLoop (i : ℕ)
  | funcRead (i : ℕ)
  | funcUnlock (i : ℕ) (t : ℤ)
  | shiftTest (i : ℕ) (t : ℤ) (j : ℕ)
  | shiftLoad (i : ℕ) (t : ℤ) (j : ℕ)
  | shiftStore (i : ℕ) (t : ℤ) (j : ℕ) (v : ℤ)
  | place (i : ℕ) (t : ℤ) (j : ℕ)
  | funcReturn
  deriving DecidableEq, Repr

/-- Both loops make `size` rounds, 10 in the source; `input` is what is typed in. -/
def code (size : ℕ) (input : ℕ → ℤ) (s : Shared) : Point → Op Thread Shared Point Mutex Cond
  | .mainLock => .lock .m .create
  | .create => .run { s with created := true } (.mainLoop 0)
  | .mainLoop i =>
    if i < size then .run { s with a := Function.update s.a i (input i) } (.mainUnlock i)
    else .unlock .m .mainJoin
  | .mainUnlock i => .unlock .m (.mainRelock i)
  | .mainRelock i => .lock .m (.mainLoop (i + 1))
  | .mainJoin => .join .func .mainReturn
  | .mainReturn => .halt
  | .funcStart => .await (s.created = true) s s .funcStart (.funcLoop 0)
  | .funcLoop i => if i < size then .lock .m (.funcRead i) else .run s .funcReturn
  | .funcRead i => .run s (.funcUnlock i (s.a i))
  | .funcUnlock i t => .unlock .m (.shiftTest i t i)
  | .shiftTest i t j =>
    .run s (if 0 < j ∧ t < s.a (j - 1) then .shiftLoad i t j else .place i t j)
  | .shiftLoad i t j => .run s (.shiftStore i t j (s.a (j - 1)))
  | .shiftStore i t j v => .run { s with a := Function.update s.a j v } (.shiftTest i t (j - 1))
  | .place i t j => .run { s with a := Function.update s.a j t } (.funcLoop (i + 1))
  | .funcReturn => .halt

def start : Thread → Point
  | .main => .mainLock
  | .func => .funcStart

/-- The array has any content at the beginning. -/
def program (size : ℕ) (input content : ℕ → ℤ) :
    System (Config Thread Shared Point Mutex Cond) (Action Thread) :=
  Pthread.program (code size input) ⟨false, content⟩ start

end PthreadBenchmark.InsertSort

import PthreadBenchmark.Shared.Pthread
import Mathlib.Data.Int.Notation

/-! # The dining philosophers of `philosophers.c`

The forks are mutexes. Philosopher 0 takes its right fork first, all others their left one. -/

namespace PthreadBenchmark.Philosophers

/-- `eaten` is history: how often each philosopher has eaten. -/
structure Shared (n : ℕ) where
  hungerOfPhylosophs : Fin n → ℤ
  eaten : Fin n → ℕ

inductive Pc where
  | test
  | takeFirst
  | takeSecond
  | eat
  | putLeft
  | putRight
  | finished
  deriving DecidableEq, Repr

/-- A point of `meal`, with the parameter `name`. -/
structure Point (n : ℕ) where
  name : Fin n
  pc : Pc
  deriving DecidableEq, Repr

variable {n : ℕ}

def leftFork (name : Fin n) : Fin n where
  val := if name.val = 0 then n - 1 else name.val - 1
  isLt := by
    have := name.isLt
    split <;> omega

def rightFork (name : Fin n) : Fin n := name

section Forks

variable (name : Fin n) (next : Point n)

def takeLeftFork : Op (Fin n) (Shared n) (Point n) (Fin n) Empty := .lock (leftFork name) next

def takeRightFork : Op (Fin n) (Shared n) (Point n) (Fin n) Empty := .lock (rightFork name) next

def putLeftFork : Op (Fin n) (Shared n) (Point n) (Fin n) Empty := .unlock (leftFork name) next

def putRightFork : Op (Fin n) (Shared n) (Point n) (Fin n) Empty := .unlock (rightFork name) next

end Forks

/-- `hungerOfPhylosophs[name]--`. -/
def eat (s : Shared n) (name : Fin n) : Shared n where
  hungerOfPhylosophs :=
    Function.update s.hungerOfPhylosophs name (s.hungerOfPhylosophs name - 1)
  eaten := Function.update s.eaten name (s.eaten name + 1)

def meal (s : Shared n) (p : Point n) : Op (Fin n) (Shared n) (Point n) (Fin n) Empty :=
  match p.pc with
  | .test =>
    .run s { p with pc := if 0 < s.hungerOfPhylosophs p.name then .takeFirst else .finished }
  | .takeFirst =>
    if p.name.val = 0 then takeRightFork p.name { p with pc := .takeSecond }
    else takeLeftFork p.name { p with pc := .takeSecond }
  | .takeSecond =>
    if p.name.val = 0 then takeLeftFork p.name { p with pc := .eat }
    else takeRightFork p.name { p with pc := .eat }
  | .eat => .run (eat s p.name) { p with pc := .putLeft }
  | .putLeft => putLeftFork p.name { p with pc := .putRight }
  | .putRight => putRightFork p.name { p with pc := .test }
  | .finished => .halt

def program (n : ℕ) (hunger : ℤ) :
    System (Config (Fin n) (Shared n) (Point n) (Fin n) Empty) (Action (Fin n)) :=
  Pthread.program meal ⟨fun _ => hunger, fun _ => 0⟩ fun name => ⟨name, .test⟩

end PthreadBenchmark.Philosophers

import PthreadBenchmark.Shared.Pthread
import Mathlib.Data.Int.Notation

/-! # The producer and the consumer of `02_condition_modify.c`

The linked list is a list, and `head == NULL` says that it is empty. `produced_num` is
changed by a load and a store, under the mutex by the consumer and outside of it by the
producer. -/

namespace PthreadBenchmark.ConditionModify

structure Shared where
  head : List ℕ
  producedNum : ℤ
  deriving DecidableEq, Repr

inductive Tid where
  | producer
  | consumer
  deriving DecidableEq, Repr

instance : Fintype Tid := ⟨{.producer, .consumer}, fun t => by cases t <;> simp⟩

inductive Mutex where
  | mutex
  deriving DecidableEq, Repr

inductive Cond where
  | cond
  deriving DecidableEq, Repr

/-- Points of `th_producer`, with the number of the node, and of `th_consumer`, which goes on
at `take` behind its wait. -/
inductive Point where
  | pushLock (k : ℕ)
  | push (k : ℕ)
  | pushUnlock (k : ℕ)
  | incLoad (k : ℕ)
  | incStore (k : ℕ) (num : ℤ)
  | signal (k : ℕ)
  | takeLock
  | test
  | wait
  | take
  | decLoad
  | decStore (num : ℤ)
  | takeUnlock
  | crashed
  deriving DecidableEq, Repr

/-- `data k` is the random number in the node `k`. -/
def code (data : ℕ → ℕ) (s : Shared) : Point → Op Tid Shared Point Mutex Cond
  | .pushLock k => .lock .mutex (.push k)
  | .push k => .run { s with head := data k :: s.head } (.pushUnlock k)
  | .pushUnlock k => .unlock .mutex (.incLoad k)
  | .incLoad k => .run s (.incStore k s.producedNum)
  | .incStore k num =>
    .run { s with producedNum := num + 1 }
      (if num + 1 = 3 then .signal k else .pushLock (k + 1))
  | .signal k => .signal .cond (.pushLock (k + 1))
  | .takeLock => .lock .mutex .test
  | .test => if s.head = [] then .run s .wait else .run s .take
  | .wait => .wait .cond .mutex .take
  | .take =>
    match s.head with
    | [] => .run s .crashed
    | _ :: rest => .run { s with head := rest } .decLoad
  | .decLoad => .run s (.decStore s.producedNum)
  | .decStore num => .run { s with producedNum := num - 1 } .takeUnlock
  | .takeUnlock => .unlock .mutex .takeLock
  | .crashed => .halt

def start : Tid → Point
  | .producer => .pushLock 0
  | .consumer => .takeLock

def program (data : ℕ → ℕ) :
    System (Config Tid Shared Point Mutex Cond) (Action Tid) :=
  Pthread.program (code data) ⟨[], 0⟩ start

end PthreadBenchmark.ConditionModify

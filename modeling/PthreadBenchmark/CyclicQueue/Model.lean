import Mathlib.Data.Nat.Notation
import Mathlib.Logic.Function.Basic

/-! # The vector and the cyclic queue of `queue_cyclic.c`

A `void *` is an `Option`, with `none` for NULL. The buffers are functions of which the
code uses the indices below the size. -/

namespace PthreadBenchmark.CyclicQueue

variable {α : Type*}

/-- `QUEUE_BUF_SIZE`. -/
def queueBufSize : ℕ := 100000

structure VectorT (α : Type*) where
  size : ℕ
  tail : ℕ
  buf : ℕ → Option α

structure QueueCycl (α : Type*) where
  front : ℕ
  tail : ℕ
  maxSize : ℕ
  cyclicBuf : ℕ → Option α

def vectorInit (size : ℕ) : VectorT α := ⟨size, 0, fun _ => none⟩

def vectorPushBack (v : VectorT α) (data : Option α) : ℕ × VectorT α :=
  if v.tail = v.size then (0, v)
  else (1, { v with buf := Function.update v.buf v.tail data, tail := v.tail + 1 })

def vectorPopBack (v : VectorT α) : Option α × VectorT α :=
  if v.tail = 0 then (none, v) else (v.buf (v.tail - 1), { v with tail := v.tail - 1 })

/-- The state `queue_init` builds, which sets `max_size` to `QUEUE_BUF_SIZE + 1`. -/
def queueInit (maxSize : ℕ) : QueueCycl α := ⟨0, 0, maxSize, fun _ => none⟩

def queueSize (q : QueueCycl α) : ℕ :=
  if q.front ≤ q.tail then q.tail - q.front else q.maxSize - q.front + q.tail

def queueIsFull (q : QueueCycl α) : Bool := (q.tail + 1) % q.maxSize = q.front

def queueIsEmpty (q : QueueCycl α) : Bool := q.front = q.tail

def queueEnqueue (q : QueueCycl α) (data : Option α) : ℕ × QueueCycl α :=
  if queueIsFull q then (0, q)
  else
    (1, { q with
      cyclicBuf := Function.update q.cyclicBuf q.tail data
      tail := (q.tail + 1) % q.maxSize })

def queueDequeue (q : QueueCycl α) : Option α × QueueCycl α :=
  if queueIsEmpty q then (none, q)
  else
    (q.cyclicBuf q.front, { q with
      cyclicBuf := Function.update q.cyclicBuf q.front none
      front := (q.front + 1) % q.maxSize })

/-- How a call of `queue_dequeueall` ends; `running` is a loop that has used up its fuel. -/
inductive Drain (α : Type*) where
  | running
  | exited
  | returned (v : VectorT α) (q : QueueCycl α)

/-- The `while` loop of `queue_dequeueall`. -/
def drainLoop : ℕ → QueueCycl α → VectorT α → Drain α
  | 0, _, _ => .running
  | fuel + 1, q, v =>
    match queueDequeue q with
    | (none, q) => .returned v q
    | (some data, q) =>
      match vectorPushBack v (some data) with
      | (0, _) => .exited
      | (_ + 1, v) => drainLoop fuel q v

/-- One iteration for each cell, and one more that finds the queue empty. -/
def queueDequeueall (q : QueueCycl α) : Drain α :=
  drainLoop (q.maxSize + 1) q (vectorInit (queueSize q))

end PthreadBenchmark.CyclicQueue

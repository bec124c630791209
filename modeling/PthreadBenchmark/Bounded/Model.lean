import PthreadBenchmark.Shared.Pthread

/-! # The bounded buffer of `05bounded.c`

The accesses of one critical section to the buffer are one operation, as they are made
under the mutex of the buffer. -/

namespace PthreadBenchmark.Bounded

/-- `produced` and `consumed` are history: the items put into the buffer and those taken
out of it, oldest first. -/
structure Buffer where
  buf : ℕ → UInt8
  occupied : ℕ
  nextin : ℕ
  nextout : ℕ
  produced : List UInt8
  consumed : List UInt8

inductive Mutex where
  | mutex
  deriving DecidableEq, Repr

inductive Cond where
  | more
  | less
  deriving DecidableEq, Repr

inductive Tid where
  | producer
  | consumer
  deriving DecidableEq, Repr

instance : Fintype Tid := ⟨{.producer, .consumer}, fun i => by cases i <;> decide⟩

/-- Points of the two loops, with the loop index. -/
inductive Point where
  | producerLoop (i : ℕ)
  | producerTest (i : ℕ)
  | producerSignal (i : ℕ)
  | producerUnlock (i : ℕ)
  | producerExit
  | consumerLoop (i : ℕ)
  | consumerTest (i : ℕ)
  | consumerSignal (i : ℕ)
  | consumerUnlock (i : ℕ)
  | consumerExit

/-- `buf[nextin++] = item; nextin %= BSIZE; occupied++`. -/
def insertItem (bsize : ℕ) (b : Buffer) (item : UInt8) : Buffer :=
  { b with
    buf := Function.update b.buf b.nextin item
    nextin := (b.nextin + 1) % bsize
    occupied := b.occupied + 1
    produced := b.produced ++ [item] }

/-- `item = buf[nextout++]; nextout %= BSIZE; occupied--`. -/
def consumeItem (bsize : ℕ) (b : Buffer) : Buffer :=
  { b with
    nextout := (b.nextout + 1) % bsize
    occupied := b.occupied - 1
    consumed := b.consumed ++ [b.buf b.nextout] }

/-- The producer stops early at a NUL in `item`. -/
def code (bsize numItems : ℕ) (item : List UInt8) (b : Buffer) :
    Point → Op Tid Buffer Point Mutex Cond
  | .producerLoop i =>
    if i < numItems then
      if item.getD i 0 = 0 then .run b .producerExit else .lock .mutex (.producerTest i)
    else .run b .producerExit
  | .producerTest i =>
    if bsize ≤ b.occupied then .wait .less .mutex (.producerTest i)
    else .run (insertItem bsize b (item.getD i 0)) (.producerSignal i)
  | .producerSignal i => .signal .more (.producerUnlock i)
  | .producerUnlock i => .unlock .mutex (.producerLoop (i + 1))
  | .producerExit => .halt
  | .consumerLoop i =>
    if i < numItems then .lock .mutex (.consumerTest i) else .run b .consumerExit
  | .consumerTest i =>
    if b.occupied ≤ 0 then .wait .more .mutex (.consumerTest i)
    else .run (consumeItem bsize b) (.consumerSignal i)
  | .consumerSignal i => .signal .less (.consumerUnlock i)
  | .consumerUnlock i => .unlock .mutex (.consumerLoop (i + 1))
  | .consumerExit => .halt

def initialBuffer : Buffer := ⟨fun _ => 0, 0, 0, 0, [], []⟩

def start : Tid → Point
  | .producer => .producerLoop 0
  | .consumer => .consumerLoop 0

def program (bsize numItems : ℕ) (item : List UInt8) :
    System (Config Tid Buffer Point Mutex Cond) (Action Tid) :=
  Pthread.program (code bsize numItems item) initialBuffer start

/-- The length of a string. -/
def strlen (item : List UInt8) : ℕ := (item.takeWhile (· ≠ 0)).length

end PthreadBenchmark.Bounded

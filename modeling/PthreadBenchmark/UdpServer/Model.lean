import PthreadBenchmark.Shared.Pthread
import Mathlib.Data.Int.Notation

/-! # The receiving threads of `udp_server.c`

`bytes_read` is a global variable: a thread stores the result of its `recvfrom` there and
reads it three times, for the test and for the two additions. `unsigned long long` values
are numbers modulo `2 ^ 64`. -/

namespace PthreadBenchmark.UdpServer

/-- `FILE_SIZE` -/
def fileSize : ℕ := 671088640

/-- `block_size = FILE_SIZE / thread_count` -/
def blockSize (n : ℕ) : ℕ := fileSize / n

structure Shared where
  filePos : ℕ
  totalBytes : ℕ
  bytesRead : ℤ
  deriving DecidableEq, Repr

/-- The number of its `recvfrom` calls and the variables of a thread that has its block. -/
structure Locals (n : ℕ) where
  threadId : Fin n
  calls : ℕ
  startPos : ℕ
  endPos : ℕ
  localBytes : ℕ
  deriving DecidableEq, Repr

/-- Where a thread that has its block is. -/
inductive At where
  | loop
  | recv
  | test
  | addLocal
  | addStart
  | totalLock
  | totalLoad
  | totalStore (totalBytes : ℕ)
  | totalUnlock
  | exited
  deriving DecidableEq, Repr

/-- Points of `receive_data`. -/
inductive Point (n : ℕ) where
  | claimLock (threadId : Fin n)
  | claimRead (threadId : Fin n)
  | claimLoad (threadId : Fin n) (startPos : ℕ)
  | claimStore (threadId : Fin n) (startPos filePos : ℕ)
  | claimUnlock (threadId : Fin n) (startPos : ℕ)
  | body (v : Locals n) (place : At)
  deriving DecidableEq, Repr

inductive Mutex where
  | mutex1
  deriving DecidableEq, Repr

/-- `x + y` in `unsigned long long`. -/
def addULL (x y : ℕ) : ℕ := (x + y) % 2 ^ 64

/-- `x += y` for an `unsigned long long` and an `int`. -/
def addInt (x : ℕ) (y : ℤ) : ℕ := ((x + y) % 2 ^ 64).toNat

variable {n : ℕ}

/-- The results of `recvfrom` are given for each thread in the order of its calls. -/
def bodyCode (recvfrom : Fin n → ℕ → ℤ) (s : Shared) (v : Locals n) :
    At → Op (Fin n) Shared (Point n) Mutex Empty
  | .loop => if v.startPos < v.endPos then .run s (.body v .recv) else .run s (.body v .totalLock)
  | .recv =>
    .run { s with bytesRead := recvfrom v.threadId v.calls }
      (.body { v with calls := v.calls + 1 } .test)
  | .test => if 0 < s.bytesRead then .run s (.body v .addLocal) else .run s (.body v .totalLock)
  | .addLocal =>
    .run s (.body { v with localBytes := addInt v.localBytes s.bytesRead } .addStart)
  | .addStart => .run s (.body { v with startPos := addInt v.startPos s.bytesRead } .loop)
  | .totalLock => .lock .mutex1 (.body v .totalLoad)
  | .totalLoad => .run s (.body v (.totalStore s.totalBytes))
  | .totalStore totalBytes =>
    .run { s with totalBytes := addULL totalBytes v.localBytes } (.body v .totalUnlock)
  | .totalUnlock => .unlock .mutex1 (.body v .exited)
  | .exited => .halt

def code (recvfrom : Fin n → ℕ → ℤ) (s : Shared) :
    Point n → Op (Fin n) Shared (Point n) Mutex Empty
  | .claimLock t => .lock .mutex1 (.claimRead t)
  | .claimRead t => .run s (.claimLoad t s.filePos)
  | .claimLoad t startPos => .run s (.claimStore t startPos s.filePos)
  | .claimStore t startPos filePos =>
    .run { s with filePos := addULL filePos (blockSize n) } (.claimUnlock t startPos)
  | .claimUnlock t startPos =>
    .unlock .mutex1 (.body ⟨t, 0, startPos, addULL startPos (blockSize n), 0⟩ .loop)
  | .body v place => bodyCode recvfrom s v place

/-- The threads that `main` creates. -/
def program (recvfrom : Fin n → ℕ → ℤ) :
    System (Config (Fin n) Shared (Point n) Mutex Empty) (Action (Fin n)) :=
  Pthread.program (code recvfrom) ⟨0, 0, 0⟩ .claimLock

/-- All threads have returned, so that `main` has joined them. -/
def Joined (recvfrom : Fin n → ℕ → ℤ) (c : Config (Fin n) Shared (Point n) Mutex Empty) : Prop :=
  ∀ i, Pthread.Halted (code recvfrom) c.shared (c.threads i)

end PthreadBenchmark.UdpServer

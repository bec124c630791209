import PthreadBenchmark.Shared.Pthread

/-! # The capture thread and the clients of `camera_thread.c`

`length` is set outside the mutex. A buffer is known by the number of the `malloc` that has
returned it; what is in it does not matter, only its size and how often it has been freed.
`stop` is never set, and a call that fails ends the process. -/

namespace PthreadBenchmark.CameraThread

/-- A frame that a client has written: the length it has announced, the length it has written, and
the size of the buffer `devconfp` if that was live. -/
structure Sent where
  announced : ℕ
  written : ℕ
  frame : Option ℕ
  deriving DecidableEq, Repr

structure Shared where
  length : ℕ
  temp : Option ℕ
  devconfp : Option ℕ
  allocated : ℕ
  size : ℕ → ℕ
  frees : ℕ → ℕ
  sent : List Sent

/-- The size of the buffer `devconfp`, if there is one that has not been freed. -/
def Shared.frame (s : Shared) : Option ℕ :=
  s.devconfp.bind fun b => if s.frees b = 0 then some (s.size b) else none

/-- `malloc(length)` -/
def Shared.malloc (s : Shared) : Shared :=
  { s with allocated := s.allocated + 1, size := Function.update s.size s.allocated s.length }

def Shared.free (s : Shared) (buffer : Option ℕ) : Shared :=
  match buffer with
  | none => s
  | some b => { s with frees := Function.update s.frees b (s.frees b + 1) }

inductive Mutex where
  | mutex
  deriving DecidableEq, Repr

inductive Cond where
  | cond
  deriving DecidableEq, Repr

/-- Points of `frame_capture_thread`, with the number of the frame. -/
inductive CapturePc where
  | setLength
  | mallocTemp
  | lock
  | publish
  | unlock
  | broadcast
  | freeTemp
  deriving DecidableEq, Repr

/-- Points of `send_msg` behind the response header. -/
inductive ClientPc where
  | lock
  | wait
  | header
  | body (announced : ℕ)
  | free
  | unlock
  | returned
  deriving DecidableEq, Repr

inductive Point (n : ℕ) where
  | capture (k : ℕ) (pc : CapturePc)
  | client (i : Fin n) (pc : ClientPc)
  deriving DecidableEq, Repr

/-- The clients, and the capture thread as `none`. -/
abbrev Tid (n : ℕ) := Option (Fin n)

variable {n : ℕ}

/-- `bytesused k` is the size of the frame `k`. -/
def frameCapture (bytesused : ℕ → ℕ) (s : Shared) (k : ℕ) :
    CapturePc → Op (Tid n) Shared (Point n) Mutex Cond
  | .setLength => .run { s with length := bytesused k } (.capture k .mallocTemp)
  | .mallocTemp => .run { s.malloc with temp := some s.allocated } (.capture k .lock)
  | .lock => .lock .mutex (.capture k .publish)
  | .publish => .run { s.malloc with devconfp := some s.allocated } (.capture k .unlock)
  | .unlock => .unlock .mutex (.capture k .broadcast)
  | .broadcast => .broadcast .cond (.capture k .freeTemp)
  | .freeTemp => .run (s.free s.temp) (.capture (k + 1) .setLength)

/-- `snapshot i` says whether the client `i` has asked for a snapshot. -/
def sendMsg (snapshot : Fin n → Bool) (s : Shared) (i : Fin n) :
    ClientPc → Op (Tid n) Shared (Point n) Mutex Cond
  | .lock => .lock .mutex (.client i .wait)
  | .wait => .wait .cond .mutex (.client i .header)
  | .header => .run s (.client i (.body s.length))
  | .body announced =>
    .run { s with sent := s.sent ++ [⟨announced, s.length, s.frame⟩] }
      (.client i (if snapshot i then .free else .unlock))
  | .free => .run (s.free s.devconfp) (.client i .unlock)
  | .unlock => .unlock .mutex (.client i (if snapshot i then .returned else .lock))
  | .returned => .halt

def code (bytesused : ℕ → ℕ) (snapshot : Fin n → Bool) (s : Shared) :
    Point n → Op (Tid n) Shared (Point n) Mutex Cond
  | .capture k pc => frameCapture bytesused s k pc
  | .client i pc => sendMsg snapshot s i pc

def initial : Shared where
  length := 0
  temp := none
  devconfp := none
  allocated := 0
  size _ := 0
  frees _ := 0
  sent := []

def start : Tid n → Point n
  | none => .capture 0 .setLength
  | some i => .client i .lock

/-- Any number of clients, which connect in any order and at any time. -/
def program (bytesused : ℕ → ℕ) (snapshot : Fin n → Bool) :
    System (Config (Tid n) Shared (Point n) Mutex Cond) (Action (Tid n)) :=
  Pthread.program (code bytesused snapshot) initial start

end PthreadBenchmark.CameraThread
